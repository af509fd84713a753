import Gsgpu.Vbios.Safe

/-! What the resources are to be: the packed structures that the descriptors point to, field by
field. The resources of encoders and connectors lack a field that is not copied. -/
namespace Gsgpu.Vbios
open Bytes

variable (img : Image)

/-! ### What is to be made -/

/-- A structure of `n` bytes, as far as a descriptor has it: the rest is `VBIOS_DATA_INVAL`. -/
def structBytes (data size n : ℕ) : List (BitVec 8) :=
  (List.range n).map fun i => if i < size then img.byte (data + i) else 0xFF

/-- The fields of the structure of a type in order, after the header's, and the resource with all of
them. The EDID in a connector is not a number. -/
def decoded (type link : ℕ) (bytes : ℕ → List (BitVec 8)) : Option Resource :=
  match type with
  | 1 => match unpack [4, 4, 4, 4, 4, 4, 1] (bytes 25) with
    | [feature, crtcId, encoderId, maxFreq, maxWidth, maxHeight, isVbTiming] =>
      some ⟨some link, .crtc
        ⟨feature, crtcId, encoderId, maxFreq, maxWidth, maxHeight, isVbTiming ≠ 0⟩⟩
    | _ => none
  | 2 => match unpack [4, 4, 4, 4, 4, 4, 1] (bytes 25) with
    | [feature, i2cId, connectorId, type, configType, chip, chipAddr] =>
      some ⟨some link, .encoder feature i2cId connectorId type configType (some chip) chipAddr⟩
    | _ => none
  | 3 => match unpack [4, 4, 256, 4, 4, 4, 4, 4] (bytes 284) with
    | [feature, i2cId, _, type, hotplug, edidMethod, irqGpio, gpioPlacement] =>
      some ⟨some link, .connector feature i2cId (some (((bytes 284).drop 8).take 256)) type hotplug
        edidMethod irqGpio gpioPlacement⟩
    | _ => none
  | 4 => match unpack [4, 2, 1] (bytes 7) with
    | [feature, id, speed] =>
      some ⟨some link, .i2c feature id (if speed = 0xFF then 10 else speed)⟩
    | _ => none
  | 5 => match unpack [4, 1, 1, 4] (bytes 10) with
    | [feature, pwm, polarity, peroid] => some ⟨some link, .pwm feature pwm polarity peroid⟩
    | _ => none
  | 9 => match unpack [4, 4, 4, 4, 4, 4, 4] (bytes 28) with
    | [vramType, bitWidth, cap, countFreq, freq, shadersNum, shadersFreq] =>
      some ⟨some 0, .gpu vramType bitWidth cap countFreq freq shadersNum shadersFreq⟩
    | _ => none
  | _ => none

/-- The same, if the version is known. -/
def expected (type ver link : ℕ) (bytes : ℕ → List (BitVec 8)) : Option Resource :=
  if ver = 0 then decoded type link bytes else none

/-- The resource for a descriptor of the table. -/
def expectedAt (desc : ℕ) : Option Resource :=
  expected (img.at desc 2) (img.at (desc + 2) 1) (img.at (desc + 3) 1)
    (structBytes img (img.at (desc + 4) 4) (img.at (desc + 8) 4))

/-- A descriptor of an encoder or a connector. -/
def Lacking (desc : ℕ) : Prop :=
  img.at (desc + 2) 1 = 0 ∧ (img.at desc 2 = 2 ∨ img.at desc 2 = 3)

/-- The resource without the fields that are not copied. -/
def Resource.copied (r : Resource) : Resource :=
  match r.payload with
  | .encoder feature i2cId connectorId type configType _ chipAddr =>
    ⟨r.link, .encoder feature i2cId connectorId type configType none chipAddr⟩
  | .connector feature i2cId _ type hotplug edidMethod irqGpio gpioPlacement =>
    ⟨r.link, .connector feature i2cId none type hotplug edidMethod irqGpio gpioPlacement⟩
  | _ => r

/-! ### What is made -/

section Made
variable {img} {desc : ℕ}

/-- The bytes that are copied, and those that are left. -/
theorem structBytes_eq (img : Image) (data size n : ℕ) : structBytes img data size n =
    ((List.range (min size n)).map fun i => img.byte (data + i)) ++
      List.replicate (n - min size n) 0xFF := by
  have hsplit : n = min size n + (n - min size n) := by omega
  have hcopied : ∀ i ∈ List.range (min size n), i < size := by
    intro i hi
    have := List.mem_range.mp hi
    omega
  have hleft : ∀ i ∈ List.range (n - min size n), ¬min size n + i < size := by
    intro i hi
    have := List.mem_range.mp hi
    omega
  calc structBytes img data size n
      = (List.range (min size n + (n - min size n))).map
          fun i => if i < size then img.byte (data + i) else 0xFF := by
        rw [← hsplit]
        rfl
    _ = ((List.range (min size n)).map fun i => img.byte (data + i)) ++
          (List.range (n - min size n)).map fun _ => 0xFF := by
        rw [List.range_add, List.map_append, List.map_map]
        congr 1
        · exact List.map_congr_left fun i hi => if_pos (hcopied i hi)
        · exact List.map_congr_left fun i hi => if_neg (hleft i hi)
    _ = _ := by rw [List.map_const', List.length_range]

theorem createResource_eq {n data size : ℕ} {decode : List (BitVec 8) → Payload} {link : Option ℕ}
    (h : Fits data (min size n)) : createResource n decode img true data link size =
      some (some ⟨link, decode (structBytes img data size n)⟩) := by
  unfold createResource
  rw [if_pos rfl, Buffer.read_eq_map h, structBytes_eq]
  simp only [Option.bind_eq_bind, Option.bind_some, List.length_map, List.length_range]
  rfl

/-- What one of the other functions makes, from what its structure decodes to. -/
theorem parseVbiosLinked_eq {n : ℕ} {decode : List (BitVec 8) → Payload} {linkOf : ℕ → Option ℕ}
    {create : Image → Bool → ℕ → ℕ → ℕ → Option (Option Resource)}
    (hcreate : ∀ a data l size,
      create img a data l size = createResource n decode img a data (linkOf l) size)
    (hin : desc + 12 ≤ vbiosSize) (hfits : Fits (img.at (desc + 4) 4) (min (img.at (desc + 8) 4) n)) :
    parseVbiosLinked create img (fun _ => true) desc =
      some (some ⟨linkOf (img.at (desc + 3) 1),
        decode (structBytes img (img.at (desc + 4) 4) (img.at (desc + 8) 4) n)⟩) := by
  unfold parseVbiosLinked
  rw [Buffer.word_eq_some (by decide) (by omega), Buffer.word_eq_some (by decide) (by omega),
    Buffer.word_eq_some (by decide) (by omega)]
  simp only [Option.bind_eq_bind, Option.bind_some, hcreate]
  exact createResource_eq hfits

/-- What is made is what is expected, as far as it is copied. -/
theorem getParseFunc_made {type ver : ℕ} (htype : type ≠ descHeader)
    (hfits : ∀ n, structSize type ver = some n →
      desc + 12 ≤ vbiosSize ∧ Fits (img.at (desc + 4) 4) (min (img.at (desc + 8) 4) n)) :
    getParseFunc type ver img (fun _ => true) desc =
      some ((expected type ver (img.at (desc + 3) 1)
        (structBytes img (img.at (desc + 4) 4) (img.at (desc + 8) 4))).map Resource.copied) := by
  generalize hbytes : structBytes img (img.at (desc + 4) 4) (img.at (desc + 8) 4) = bytes
  by_cases hver : ver = 0
  case neg =>
    have hne : ¬ (0 = ver) := fun h => hver h.symm
    simp [getParseFunc, tables, hver, hne, parseVbiosDefault, expected]
  case pos =>
    subst hver
    rcases type with _ | _ | _ | _ | _ | _ | _ | _ | _ | _ | type
    · exact absurd rfl htype
    · obtain ⟨hin, hdata⟩ := hfits 25 rfl
      refine (parseVbiosLinked_eq (fun _ _ _ _ => rfl) hin hdata).trans ?_
      simp only [hbytes, expected, decoded, unpack, field, List.drop_drop, List.drop_zero, if_true,
        Nat.reduceAdd, Option.map_some, Resource.copied]
    · obtain ⟨hin, hdata⟩ := hfits 25 rfl
      refine (parseVbiosLinked_eq (fun _ _ _ _ => rfl) hin hdata).trans ?_
      simp only [hbytes, expected, decoded, unpack, field, List.drop_drop, List.drop_zero, if_true,
        Nat.reduceAdd, Option.map_some, Resource.copied]
    · obtain ⟨hin, hdata⟩ := hfits 284 rfl
      refine (parseVbiosLinked_eq (fun _ _ _ _ => rfl) hin hdata).trans ?_
      simp only [hbytes, expected, decoded, unpack, field, List.drop_drop, List.drop_zero, if_true,
        Nat.reduceAdd, Option.map_some, Resource.copied]
    · obtain ⟨hin, hdata⟩ := hfits 7 rfl
      refine (parseVbiosLinked_eq (fun _ _ _ _ => rfl) hin hdata).trans ?_
      simp only [hbytes, expected, decoded, unpack, field, List.drop_drop, List.drop_zero, if_true,
        Nat.reduceAdd, Option.map_some, Resource.copied]
    · obtain ⟨hin, hdata⟩ := hfits 10 rfl
      refine (parseVbiosLinked_eq (fun _ _ _ _ => rfl) hin hdata).trans ?_
      simp only [hbytes, expected, decoded, unpack, field, List.drop_drop, List.drop_zero, if_true,
        Nat.reduceAdd, Option.map_some, Resource.copied]
    · rfl
    · rfl
    · rfl
    · obtain ⟨hin, hdata⟩ := hfits 28 rfl
      refine (parseVbiosLinked_eq (fun _ _ _ _ => rfl) hin hdata).trans ?_
      simp only [hbytes, expected, decoded, unpack, field, List.drop_drop, List.drop_zero, if_true,
        Nat.reduceAdd, Option.map_some, Resource.copied]
    · simp [getParseFunc, tables, parseVbiosDefault, expected, decoded]

/-- The resources of encoders and connectors are not copied in full. -/
theorem expected_copied_iff (type ver link : ℕ) (bytes : ℕ → List (BitVec 8)) :
    (expected type ver link bytes).map Resource.copied = expected type ver link bytes ↔
      ¬(ver = 0 ∧ (type = 2 ∨ type = 3)) := by
  by_cases hver : ver = 0
  case neg => simp [expected, hver]
  case pos =>
    subst hver
    rcases type with _ | _ | _ | _ | _ | _ | _ | _ | _ | _ | type <;>
      simp [expected, decoded, unpack, Resource.copied]

/-- What the loop makes of a descriptor; there is memory for everything. -/
def madeAt (img : Image) (desc : ℕ) : Option Resource :=
  if img.at desc 2 = descHeader then none else (parseDesc img (fun _ => true) desc).getD none

theorem madeAt_eq (hin : desc + 2 ≤ vbiosSize)
    (hfits : img.at desc 2 ≠ descHeader → DescFits img (fun _ => true) desc) :
    madeAt img desc = (expectedAt img desc).map Resource.copied := by
  unfold madeAt
  by_cases htype : img.at desc 2 = descHeader
  · rw [if_pos htype]
    unfold expectedAt expected
    rw [htype]
    split_ifs <;> rfl
  · obtain ⟨hver, hdata⟩ := hfits htype
    have hmade := getParseFunc_made htype fun n hn => ⟨(hdata n hn).1, (hdata n hn).2 rfl⟩
    rw [if_neg htype, parseDesc, Buffer.word_eq_some (by decide) hin,
      Buffer.word_eq_some (by decide) (show desc + 2 + 1 ≤ vbiosSize from hver)]
    simp only [Option.bind_eq_bind, Option.bind_some, hmade, Option.getD_some]
    rfl

theorem Passes.madeAt_eq {header start index : ℕ}
    (h : Passes img (fun _ => true) header start index) :
    madeAt img (start + descBytes * index) =
      (expectedAt img (start + descBytes * index)).map Resource.copied :=
  Vbios.madeAt_eq h.1 fun htype => (h.2.resolve_left htype).2.2.2.2

/-- The resources of a table, in its order. -/
theorem parseLoop_eq {header start stop : ℕ} (n : ℕ) {index : ℕ} (hn : index + n = stop)
    (hpass : ∀ i < stop, Passes img (fun _ => true) header start i)
    (hend : Ends img header start stop) (resources : List Resource) :
    parseLoop img (fun _ => true) header start index resources =
      some (resources ++
        (List.range' index n).filterMap fun i => madeAt img (start + descBytes * i)) := by
  induction n generalizing index resources with
  | zero =>
    obtain rfl : index = stop := hn
    rw [parseLoop_of_ends hend]
    simp
  | succ n ih =>
    obtain ⟨made, hloop, hmade⟩ := parseLoop_step resources (hpass index (by omega))
    have hat : madeAt img (start + descBytes * index) = made := by
      unfold madeAt
      rcases hmade with ⟨htype, rfl⟩ | ⟨htype, -, hmade⟩
      · rw [if_pos htype]
      · rw [if_neg htype, hmade]
        rfl
    rw [hloop, ih (by omega), List.range'_succ, List.filterMap_cons, hat, List.append_assoc]
    cases made <;> rfl

end Made

/-! ### Whole images -/

/-- The image has a header of the known version and a table that ends before any bound of it, and
everything that they point to is inside. -/
structure Valid (stop : ℕ) (debug : Bool) : Prop where
  header : img.at vbiosDescOffset 2 = descHeader
  version : img.at (vbiosDescOffset + 2) 1 = 0
  data : Fits (img.at (vbiosDescOffset + 4) 4) (min (img.at (vbiosDescOffset + 8) 4) 92)
  strings : debug → HasZero img (img.at (vbiosDescOffset + 4) 4 + 4) ∧
    HasZero img (img.at (vbiosDescOffset + 4) 4 + 36)
  offset : img.at (vbiosDescOffset + 4) 4 + 80 ≤ vbiosSize
  passes : ∀ i < stop, Passes img (fun _ => true) (img.at (vbiosDescOffset + 4) 4)
    (img.at (img.at (vbiosDescOffset + 4) 4 + 76) 4) i
  last_in : img.at (img.at (vbiosDescOffset + 4) 4 + 76) 4 + descBytes * stop + 2 ≤ vbiosSize
  last : img.at (img.at (img.at (vbiosDescOffset + 4) 4 + 76) 4 + descBytes * stop) 2 = descMax

/-- Descriptor `i` of the table. -/
def tableDesc (i : ℕ) : ℕ := img.at (img.at (vbiosDescOffset + 4) 4 + 76) 4 + descBytes * i

/-- The header's resource, but for what the start of the image says. -/
def expectedHeader (info : HeaderInfo) : Resource :=
  let bytes := structBytes img (img.at (vbiosDescOffset + 4) 4) (img.at (vbiosDescOffset + 8) 4) 92
  ⟨none, .header ⟨(bytes.drop 4).take 32, (bytes.drop 36).take 32, some info⟩⟩

variable {img} {stop : ℕ} {debug : Bool}

/-- The header resource of a valid image, before its strings are made. -/
theorem Valid.parseDesc_header (h : Valid img stop debug) :
    parseDesc img (fun _ => true) vbiosDescOffset = some (some ⟨none, .header
      ⟨((structBytes img (img.at (vbiosDescOffset + 4) 4) (img.at (vbiosDescOffset + 8) 4) 92).drop
          4).take 32,
        ((structBytes img (img.at (vbiosDescOffset + 4) 4) (img.at (vbiosDescOffset + 8) 4) 92).drop
          36).take 32, none⟩⟩) := by
  have hdesc : vbiosDescOffset + 12 ≤ vbiosSize := by decide
  have hver : img.word (vbiosDescOffset + 2) 1 = some 0 := by
    rw [Buffer.word_eq_some (by decide) (by omega), h.version]
  have htype : img.word vbiosDescOffset 2 = some descHeader := by
    rw [Buffer.word_eq_some (by decide) (by omega), h.header]
  have hoffset : img.word (vbiosDescOffset + 4) 4 = some (img.at (vbiosDescOffset + 4) 4) :=
    Buffer.word_eq_some (by decide) (by omega)
  have hsize : img.word (vbiosDescOffset + 8) 4 = some (img.at (vbiosDescOffset + 8) 4) :=
    Buffer.word_eq_some (by decide) (by omega)
  unfold parseDesc
  rw [htype, hver]
  change parseVbiosHeader img (fun _ => true) vbiosDescOffset = _
  unfold parseVbiosHeader
  rw [hoffset, hsize]
  change createHeaderResource img true _ _ = _
  unfold createHeaderResource
  exact createResource_eq h.data

theorem dcVbiosParse_eq (h : Valid img stop debug) : ∃ info,
    dcVbiosParse img (fun _ => true) debug = some (some (expectedHeader img info ::
      (List.range stop).filterMap fun i => madeAt img (tableDesc img i))) := by
  have hdesc : vbiosDescOffset + 12 ≤ vbiosSize := by decide
  have htype : img.word vbiosDescOffset 2 = some descHeader := by
    rw [Buffer.word_eq_some (by decide) (by omega), h.header]
  have hoffset : img.word (vbiosDescOffset + 4) 4 = some (img.at (vbiosDescOffset + 4) 4) :=
    Buffer.word_eq_some (by decide) (by omega)
  have hstart : img.word (img.at (vbiosDescOffset + 4) 4 + 76) 4 =
      some (img.at (img.at (vbiosDescOffset + 4) 4 + 76) 4) :=
    Buffer.word_eq_some (by decide) h.offset
  have hheader := h.parseDesc_header
  have hends : Ends img (img.at (vbiosDescOffset + 4) 4)
      (img.at (img.at (vbiosDescOffset + 4) 4 + 76) 4) stop :=
    ⟨h.last_in, by rw [h.last]; decide, .inl h.last⟩
  have hloop := parseLoop_eq stop (Nat.zero_add stop) h.passes hends
  unfold expectedHeader tableDesc
  dsimp only
  generalize structBytes img (img.at (vbiosDescOffset + 4) 4) (img.at (vbiosDescOffset + 8) 4) 92 =
    bytes at hheader ⊢
  generalize hmade : (List.range stop).filterMap (fun i =>
    madeAt img (img.at (img.at (vbiosDescOffset + 4) 4 + 76) 4 + descBytes * i)) = made
  obtain ⟨info, -, hinfo⟩ := @parseVbiosInfo_cons img none
    ⟨(bytes.drop 4).take 32, (bytes.drop 36).take 32, none⟩ made
  simp only [← List.range_eq_range', hmade] at hloop
  refine ⟨info, ?_⟩
  cases debug with
  | false =>
    simp only [dcVbiosParse, htype, hheader, hoffset, hstart, hloop, hinfo, Option.bind_eq_bind,
      Option.bind_some, ne_eq, not_true_eq_false, if_false, Bool.false_eq_true, Option.pure_def,
      List.singleton_append]
  | true =>
    obtain ⟨hvendor, hproduct⟩ := h.strings rfl
    obtain ⟨u, hvendor⟩ := Option.isSome_iff_exists.mp (Buffer.scan_isSome.mpr hvendor)
    obtain ⟨v, hproduct⟩ := Option.isSome_iff_exists.mp (Buffer.scan_isSome.mpr hproduct)
    simp only [dcVbiosParse, htype, hheader, hoffset, hstart, hloop, hinfo, hvendor, hproduct,
      Option.bind_eq_bind, Option.bind_some, ne_eq, not_true_eq_false, if_false, if_true,
      Option.pure_def, List.singleton_append]

/-! ### Looking resources up -/

/-- `enum resource_type`. -/
inductive ResourceType
  | default
  | header
  | gpu
  | gpio
  | i2c
  | pwm
  | crtc
  | encoder
  | connector
  | max
deriving DecidableEq

/-- The type that a resource is given where it is made. -/
def Resource.type (r : Resource) : ResourceType :=
  match r.payload with
  | .header _ => .header
  | .crtc _ => .crtc
  | .encoder .. => .encoder
  | .connector .. => .connector
  | .i2c .. => .i2c
  | .pwm .. => .pwm
  | .gpu .. => .gpu

/-- The `vbios_get_*_resource` other than the header's, each for its type. -/
def getLinkedResource (type : ResourceType) (resources : List Resource) (link : ℕ) : Option Resource :=
  resources.find? fun r => r.link = some link ∧ r.type = type

/-- `dc_get_vbios_resource`. There is no function for GPIOs. -/
def dcGetVbiosResource (resources : List Resource) (link : ℕ) : ResourceType → Option Resource
  | .header => resources.find? fun r => r.type = .header
  | .crtc => getLinkedResource .crtc resources link
  | .encoder => getLinkedResource .encoder resources link
  | .connector => getLinkedResource .connector resources link
  | .gpio => none
  | .i2c => getLinkedResource .i2c resources link
  | .pwm => getLinkedResource .pwm resources link
  | .gpu => getLinkedResource .gpu resources 0
  | .default => none
  | .max => none

/-- The resource is one of the type for the link: for a header any, for a GPU 0. -/
def Resource.Answers (r : Resource) (link : ℕ) (type : ResourceType) : Prop :=
  r.type = type ∧ (type = .header ∨ r.link = some (if type = .gpu then 0 else link))

/-- The first resource of the type for the link, or none if there is none. -/
def IsFirst (resources : List Resource) (link : ℕ) (type : ResourceType) : Option Resource → Prop
  | some r => r.Answers link type ∧ ∃ before after, resources = before ++ r :: after ∧
      ∀ x ∈ before, ¬x.Answers link type
  | none => ∀ x ∈ resources, ¬x.Answers link type

theorem isFirst_find {resources : List Resource} {link : ℕ} {type : ResourceType}
    {p : Resource → Bool} (hp : ∀ r, p r = true ↔ r.Answers link type) :
    IsFirst resources link type (resources.find? p) := by
  cases hfind : resources.find? p with
  | none =>
    intro x hx
    rw [← hp]
    exact List.find?_eq_none.mp hfind x hx
  | some r =>
    obtain ⟨hr, before, after, hsplit, hno⟩ := List.find?_eq_some_iff_append.mp hfind
    refine ⟨(hp r).mp hr, before, after, hsplit, fun x hx => ?_⟩
    rw [← hp]
    simpa using hno x hx

theorem isFirst_linked {resources : List Resource} {link : ℕ} {type : ResourceType}
    (hheader : type ≠ .header) (hgpu : type ≠ .gpu) :
    IsFirst resources link type (getLinkedResource type resources link) := by
  apply isFirst_find
  intro r
  simp [Resource.Answers, hheader, hgpu, and_comm]

/-- What is looked up is the first there is. -/
theorem dcGetVbiosResource_isFirst (resources : List Resource) (link : ℕ) (type : ResourceType) :
    IsFirst resources link type (dcGetVbiosResource resources link type) := by
  have hnone : ∀ r : Resource, r.type ≠ .default ∧ r.type ≠ .gpio ∧ r.type ≠ .max := by
    intro r
    unfold Resource.type
    cases r.payload <;> simp
  cases type with
  | default => exact fun r _ h => (hnone r).1 h.1
  | gpio => exact fun r _ h => (hnone r).2.1 h.1
  | max => exact fun r _ h => (hnone r).2.2 h.1
  | header => exact isFirst_find fun r => by simp [Resource.Answers]
  | gpu => exact isFirst_find fun r => by simp [Resource.Answers, and_comm]
  | i2c => exact isFirst_linked (by decide) (by decide)
  | pwm => exact isFirst_linked (by decide) (by decide)
  | crtc => exact isFirst_linked (by decide) (by decide)
  | encoder => exact isFirst_linked (by decide) (by decide)
  | connector => exact isFirst_linked (by decide) (by decide)

/-! ### Faithfulness -/

/-- Mapping keeps a list of what there is exactly if it keeps each of it. -/
theorem map_filterMap_eq_iff {α β : Type*} (f : α → Option β) (g : β → β) (l : List α) :
    (l.filterMap f).map g = l.filterMap f ↔ ∀ x ∈ l, (f x).map g = f x := by
  induction l with
  | nil => simp
  | cons x l ih =>
    rw [List.filterMap_cons, List.forall_mem_cons, ← ih]
    cases f x <;> simp

/-- The image is parsed to the header and these resources of its table, and what is looked up is the
first there is. -/
def ParsedTo (img : Image) (debug : Bool) (table : List Resource) : Prop :=
  ∃ resources info, dcVbiosParse img (fun _ => true) debug = some (some resources) ∧
    resources = expectedHeader img info :: table ∧
    ∀ link type, IsFirst resources link type (dcGetVbiosResource resources link type)

/-- The expected resources of a table. -/
def expectedTable (img : Image) (stop : ℕ) : List Resource :=
  (List.range stop).filterMap fun i => expectedAt img (tableDesc img i)

section Valid
variable {img : Image} {stop : ℕ} {debug : Bool}

/-- A valid image is parsed as far as the fields are copied. -/
theorem Valid.parsedTo (h : Valid img stop debug) :
    ParsedTo img debug ((expectedTable img stop).map Resource.copied) := by
  obtain ⟨info, hparse⟩ := dcVbiosParse_eq h
  have hmade : (List.range stop).filterMap (fun i => madeAt img (tableDesc img i)) =
      (expectedTable img stop).map Resource.copied := by
    unfold expectedTable
    rw [List.map_filterMap]
    apply List.filterMap_congr
    exact fun i hi => (h.passes i (List.mem_range.mp hi)).madeAt_eq
  rw [hmade] at hparse
  exact ⟨_, info, hparse, rfl, dcGetVbiosResource_isFirst _⟩

theorem ParsedTo.unique {table table' : List Resource} (h : ParsedTo img debug table)
    (h' : ParsedTo img debug table') : table = table' := by
  obtain ⟨resources, info, hrun, hlist, -⟩ := h
  obtain ⟨resources', info', hrun', hlist', -⟩ := h'
  have hsame : resources = resources' := Option.some.inj (Option.some.inj (hrun.symm.trans hrun'))
  exact (List.cons.inj (hlist.symm.trans (hsame.trans hlist'))).2

theorem Valid.parsedTo_iff (h : Valid img stop debug) :
    ParsedTo img debug (expectedTable img stop) ↔ ∀ i < stop, ¬Lacking img (tableDesc img i) := by
  have hcopied : (expectedTable img stop).map Resource.copied = expectedTable img stop ↔
      ∀ i < stop, ¬Lacking img (tableDesc img i) := by
    refine (map_filterMap_eq_iff _ _ _).trans ?_
    simp only [List.mem_range]
    exact forall_congr' fun i => imp_congr_right fun _ => expected_copied_iff _ _ _ _
  rw [← hcopied]
  constructor
  · exact fun hfull => h.parsedTo.unique hfull
  · exact fun hsame => hsame ▸ h.parsedTo

/-- A valid image is parsed to the expected resources of its table, less the fields that are not
copied; it is parsed to these resources exactly when there is no encoder and no connector. -/
theorem dcVbiosParse_faithful_iff (h : Valid img stop debug) :
    ParsedTo img debug ((expectedTable img stop).map Resource.copied) ∧
      (ParsedTo img debug (expectedTable img stop) ↔ ∀ i < stop, ¬Lacking img (tableDesc img i)) :=
  ⟨h.parsedTo, h.parsedTo_iff⟩

/-- A table of one descriptor, whose structure has 25 bytes. -/
theorem valid_of_one (htype : img.at vbiosDescOffset 2 = descHeader)
    (hver : img.at (vbiosDescOffset + 2) 1 = 0) (hheader : img.at (vbiosDescOffset + 4) 4 = 0x100)
    (hstart : img.at (0x100 + 76) 4 = 0x7000) (hmax : img.at 0x7000 2 ≠ descMax)
    (hsize : structSize (img.at 0x7000 2) (img.at 0x7002 1) = some 25)
    (hdata : img.at 0x7004 4 = 0x200) (hlast : img.at 0x701C 2 = descMax) :
    Valid img 1 false := by
  have hin : 0x7000 + 30 ≤ vbiosSize := by decide
  constructor
  case header => exact htype
  case version => exact hver
  case strings => simp
  case data =>
    rw [hheader]
    exact .inr (by omega)
  case offset =>
    rw [hheader]
    omega
  case last_in =>
    rw [hheader, hstart]
    exact hin
  case last =>
    rw [hheader, hstart]
    exact hlast
  case passes =>
    intro i hi
    obtain rfl : i = 0 := by omega
    rw [hheader, hstart]
    refine ⟨by omega, .inr ⟨hmax, by omega, Nat.zero_le _, Nat.zero_le _, by omega, ?_⟩⟩
    intro n hn
    obtain rfl : 25 = n := Option.some.inj (hsize.symm.trans hn)
    refine ⟨by omega, fun _ => .inr ?_⟩
    change img.at 0x7004 4 + _ ≤ _
    rw [hdata]
    omega

end Valid

/-- An image whose table has one descriptor, of 25 bytes of zeros. -/
def oneDesc (type : BitVec 8) : Image := fun i =>
  match i.val with
  | 0x6005 => 1
  | 0x6008 => 92
  | 0x14D => 0x70
  | 0x150 => 1
  | 0x7000 => type
  | 0x7005 => 2
  | 0x7008 => 25
  | 0x701C => 0xFF
  | 0x701D => 0xFF
  | _ => 0

/-- A CRTC is parsed in full. -/
theorem dcVbiosParse_faithful_crtc :
    ParsedTo (oneDesc 1) false ((expectedTable (oneDesc 1) 1).map Resource.copied) ∧
      (ParsedTo (oneDesc 1) false (expectedTable (oneDesc 1) 1) ↔
        ∀ i < 1, ¬Lacking (oneDesc 1) (tableDesc (oneDesc 1) i)) :=
  dcVbiosParse_faithful_iff (valid_of_one (by decide) (by decide) (by decide) (by decide) (by decide)
    (by decide) (by decide) (by decide))

theorem oneDesc_encoder_valid : Valid (oneDesc 2) 1 false :=
  valid_of_one (by decide) (by decide) (by decide) (by decide) (by decide) (by decide) (by decide)
    (by decide)

/-- The resource of an encoder has no chip. -/
theorem encoder_not_faithful : Valid (oneDesc 2) 1 false ∧ tableDesc (oneDesc 2) 0 = 0x7000 ∧
    madeAt (oneDesc 2) 0x7000 = some ⟨some 0, .encoder 0 0 0 0 0 none 0⟩ ∧
    expectedAt (oneDesc 2) 0x7000 = some ⟨some 0, .encoder 0 0 0 0 0 (some 0) 0⟩ ∧
    ¬ParsedTo (oneDesc 2) false (expectedTable (oneDesc 2) 1) := by
  have hdesc : tableDesc (oneDesc 2) 0 = 0x7000 := by decide
  refine ⟨oneDesc_encoder_valid, hdesc, rfl, rfl, ?_⟩
  intro h
  apply oneDesc_encoder_valid.parsedTo_iff.mp h 0 Nat.one_pos
  rw [hdesc]
  exact ⟨by decide, .inl (by decide)⟩

end Gsgpu.Vbios
