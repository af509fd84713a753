import Gsgpu.Vbios.Parse

/-! The images that the parser reads safely. -/
namespace Gsgpu.Vbios
open Bytes

variable (img : Image) (alloc : ℕ → Bool)

/-- The range is in the image, or empty. -/
def Fits (pos n : ℕ) : Prop := n = 0 ∨ pos + n ≤ vbiosSize

/-- The size of the structure that the data of a descriptor is copied to. -/
def structSize (type ver : ℕ) : Option ℕ :=
  if ver = 0 then
    match type with
    | 0 => some 92
    | 1 => some 25
    | 2 => some 25
    | 3 => some 284
    | 4 => some 7
    | 5 => some 10
    | 9 => some 28
    | _ => none
  else none

/-- The descriptor is in the image as far as it is read, and so is its data. -/
def DescFits (desc : ℕ) : Prop :=
  desc + 3 ≤ vbiosSize ∧ ∀ n, structSize (img.at desc 2) (img.at (desc + 2) 1) = some n →
    desc + 12 ≤ vbiosSize ∧
      (alloc desc → Fits (img.at (desc + 4) 4) (min (img.at (desc + 8) 4) n))

/-- The loop goes on after a descriptor of the table. -/
def Passes (header start index : ℕ) : Prop :=
  let desc := start + descBytes * index
  desc + 2 ≤ vbiosSize ∧ (img.at desc 2 = descHeader ∨
    img.at desc 2 ≠ descMax ∧ header + 84 ≤ vbiosSize ∧ index ≤ img.at (header + 80) 4 ∧
      index ≤ vbiosDescTotal ∧ DescFits img alloc desc)

/-- The loop ends at a descriptor of the table. -/
def Ends (header start index : ℕ) : Prop :=
  let desc := start + descBytes * index
  desc + 2 ≤ vbiosSize ∧ img.at desc 2 ≠ descHeader ∧ (img.at desc 2 = descMax ∨
    header + 84 ≤ vbiosSize ∧ (img.at (header + 80) 4 < index ∨ vbiosDescTotal < index))

/-- From the position on there is a zero. -/
def HasZero (pos : ℕ) : Prop := ∃ q, ∃ h : q < vbiosSize, pos ≤ q ∧ img ⟨q, h⟩ = 0

variable {img alloc} {desc header start index link : ℕ} {resources resources' : List Resource}

theorem createResource_isSome {n : ℕ} {decode : List (BitVec 8) → Payload} {a : Bool}
    {data size : ℕ} {l : Option ℕ} :
    (createResource n decode img a data l size).isSome ↔ (a → Fits data (min size n)) := by
  cases a with
  | false => simp [createResource]
  | true =>
    have hread := @Buffer.read_isSome _ img data (min size n)
    simp only [createResource, if_true, Option.bind_eq_bind, Option.isSome_bind, Fits,
      forall_const, ← hread]
    cases img.read data (min size n) <;> simp

/-- A function whose resource is made of a structure of `n` bytes. -/
theorem parseVbiosLinked_isSome {n : ℕ}
    {create : Image → Bool → ℕ → ℕ → ℕ → Option (Option Resource)}
    (hcreate : ∀ a data l size, (create img a data l size).isSome ↔ (a → Fits data (min size n))) :
    (parseVbiosLinked create img alloc desc).isSome ↔ desc + 12 ≤ vbiosSize ∧
      (alloc desc → Fits (img.at (desc + 4) 4) (min (img.at (desc + 8) 4) n)) := by
  simp only [parseVbiosLinked, Option.bind_eq_bind]
  rw [Buffer.isSome_word_bind (by decide), Buffer.isSome_word_bind (by decide),
    Buffer.isSome_word_bind (by decide), hcreate]
  constructor
  · rintro ⟨-, -, hsize, hdata⟩
    exact ⟨by omega, hdata⟩
  · rintro ⟨hsize, hdata⟩
    exact ⟨by omega, by omega, by omega, hdata⟩

theorem parseVbiosHeader_isSome :
    (parseVbiosHeader img alloc desc).isSome ↔ desc + 12 ≤ vbiosSize ∧
      (alloc desc → Fits (img.at (desc + 4) 4) (min (img.at (desc + 8) 4) 92)) := by
  simp only [parseVbiosHeader, Option.bind_eq_bind]
  rw [Buffer.isSome_word_bind (by decide), Buffer.isSome_word_bind (by decide),
    createHeaderResource, createResource_isSome]
  constructor
  · rintro ⟨-, hsize, hdata⟩
    exact ⟨by omega, hdata⟩
  · rintro ⟨hsize, hdata⟩
    exact ⟨by omega, by omega, hdata⟩

theorem getParseFunc_isSome {type ver : ℕ} :
    (getParseFunc type ver img alloc desc).isSome ↔ ∀ n, structSize type ver = some n →
      desc + 12 ≤ vbiosSize ∧
        (alloc desc → Fits (img.at (desc + 4) 4) (min (img.at (desc + 8) 4) n)) := by
  by_cases hver : ver = 0
  case neg =>
    have hne : ¬ (0 = ver) := fun h => hver h.symm
    simp [getParseFunc, tables, structSize, hver, hne, parseVbiosDefault]
  case pos =>
    subst hver
    -- one case for each type of the tables, and those between and after them
    rcases type with _ | _ | _ | _ | _ | _ | _ | _ | _ | _ | type
    · exact parseVbiosHeader_isSome.trans (by simp [structSize])
    · exact (parseVbiosLinked_isSome fun _ _ _ _ => createResource_isSome).trans
        (by simp [structSize])
    · exact (parseVbiosLinked_isSome fun _ _ _ _ => createResource_isSome).trans
        (by simp [structSize])
    · exact (parseVbiosLinked_isSome fun _ _ _ _ => createResource_isSome).trans
        (by simp [structSize])
    · exact (parseVbiosLinked_isSome fun _ _ _ _ => createResource_isSome).trans
        (by simp [structSize])
    · exact (parseVbiosLinked_isSome fun _ _ _ _ => createResource_isSome).trans
        (by simp [structSize])
    · simp [getParseFunc, tables, structSize, parseVbiosDefault]
    · simp [getParseFunc, tables, structSize, parseVbiosDefault]
    · simp [getParseFunc, tables, structSize, parseVbiosDefault]
    · exact (parseVbiosLinked_isSome fun _ _ _ _ => createResource_isSome).trans
        (by simp [structSize])
    · simp [getParseFunc, tables, structSize, parseVbiosDefault]

theorem parseDesc_isSome : (parseDesc img alloc desc).isSome ↔ DescFits img alloc desc := by
  simp only [parseDesc, Option.bind_eq_bind]
  rw [Buffer.isSome_word_bind (by decide), Buffer.isSome_word_bind (by decide),
    getParseFunc_isSome, DescFits]
  constructor
  · rintro ⟨-, hver, hdata⟩
    exact ⟨hver, hdata⟩
  · rintro ⟨hver, hdata⟩
    exact ⟨by omega, hver, hdata⟩

variable {made : Option Resource}

theorem atEnd_eq (htype : img.at desc 2 ≠ descMax) (hin : header + 84 ≤ vbiosSize) :
    atEnd img header (img.at desc 2) index =
      some (img.at (header + 80) 4 < index || vbiosDescTotal < index) := by
  rw [atEnd, if_neg htype, Buffer.word_eq_some (by decide) (by omega)]
  rfl

/-- The loop goes on with what the descriptor made: nothing for another header. -/
theorem parseLoop_step (resources : List Resource) (h : Passes img alloc header start index) :
    ∃ made : Option Resource,
      parseLoop img alloc header start index resources =
        parseLoop img alloc header start (index + 1) (resources ++ made.toList) ∧
      (img.at (start + descBytes * index) 2 = descHeader ∧ made = none ∨
        img.at (start + descBytes * index) 2 ≠ descHeader ∧
          DescFits img alloc (start + descBytes * index) ∧
          parseDesc img alloc (start + descBytes * index) = some made) := by
  obtain ⟨hin, hpass⟩ := h
  by_cases htype : img.at (start + descBytes * index) 2 = descHeader
  · refine ⟨none, ?_, .inl ⟨htype, rfl⟩⟩
    rw [parseLoop]
    split
    case h_1 hnone => simp [Buffer.word_eq_some (by decide) hin] at hnone
    case h_2 type hsome =>
      obtain ⟨-, rfl⟩ := Buffer.of_word (by decide) hsome
      simp [htype]
  · obtain ⟨hmax, hheader, hsize, htotal, hfits⟩ := hpass.resolve_left htype
    obtain ⟨made, hmade⟩ := Option.isSome_iff_exists.mp (parseDesc_isSome.mpr hfits)
    refine ⟨made, ?_, .inr ⟨htype, hfits, hmade⟩⟩
    rw [parseLoop]
    split
    case h_1 hnone => simp [Buffer.word_eq_some (by decide) hin] at hnone
    case h_2 type hsome =>
      obtain ⟨-, rfl⟩ := Buffer.of_word (by decide) hsome
      have hend : atEnd img header (img.at (start + descBytes * index) 2) index = some false := by
        rw [atEnd_eq hmax hheader]
        simp [Nat.not_lt.mpr hsize, Nat.not_lt.mpr htotal]
      simp [htype, hend, hmade]

theorem parseLoop_of_ends (h : Ends img header start index) :
    parseLoop img alloc header start index resources = some resources := by
  obtain ⟨hin, htype, hend⟩ := h
  rw [parseLoop]
  split
  case h_1 hnone => simp [Buffer.word_eq_some (by decide) hin] at hnone
  case h_2 type hsome =>
    obtain ⟨-, rfl⟩ := Buffer.of_word (by decide) hsome
    have hend : atEnd img header (img.at (start + descBytes * index) 2) index = some true := by
      by_cases hmax : img.at (start + descBytes * index) 2 = descMax
      · simp [atEnd, hmax]
      · obtain ⟨hheader, hlimit⟩ := hend.resolve_left hmax
        rw [atEnd_eq hmax hheader]
        simpa using hlimit
    simp [htype, hend]

theorem parseVbiosInfo_cons {l : Option ℕ} {header : Header} {more : List Resource} :
    ∃ info : HeaderInfo, info.links = img.at 44 4 ∧
      parseVbiosInfo img (⟨l, .header header⟩ :: more) =
        some (⟨l, .header { header with info := some info }⟩ :: more) := by
  obtain ⟨name, hname⟩ := Option.isSome_iff_exists.mp
    ((Buffer.read_isSome (b := img) (n := 16)).mpr (.inr (by decide : 0 + 16 ≤ vbiosSize)))
  refine ⟨⟨img.at 44 4, img.at 16 4 % 256, img.at 20 4 % 256, name⟩, rfl, ?_⟩
  simp only [parseVbiosInfo, getHeaderResource, List.findSome?_cons, hname,
    Buffer.word_eq_some (b := img) (n := 4) (by decide) (by decide : 44 + 4 ≤ vbiosSize),
    Buffer.word_eq_some (b := img) (n := 4) (by decide) (by decide : 16 + 4 ≤ vbiosSize),
    Buffer.word_eq_some (b := img) (n := 4) (by decide) (by decide : 20 + 4 ≤ vbiosSize)]
  rfl

end Gsgpu.Vbios
