import Gsgpu.Fill.Buffer

/-! When the packets of `gsgpu_fill_buffer` fill exactly the buffer: only while no node takes more
than one row. -/
namespace Gsgpu.Fill
open Gsgpu.Vm (Node u64 nodePages)
open Gsgpu.PageTable (u32 gspkt gspktNop xdmaRows xdmaPitch xdmaRingPadIb)
open Memory (lower32 upper32)

/-! ### One packet -/

/-- The bytes that one packet is meant for. -/
structure Span where
  dst : ℕ
  bytes : ℕ

/-- The width and the height of the packet. -/
def Span.rows (s : Span) : ℕ × ℕ := xdmaRows (s.bytes / 4) 1

/-- What the packet does. -/
def Span.write (srcData : ℕ) (s : Span) : (ℕ → ℕ) → ℕ → ℕ :=
  fillRows (lower32 srcData) s.dst s.rows.1 (xdmaPitch s.rows.1) s.rows.2 0

/-- A packet can hold it. -/
structure Span.Fits (s : Span) : Prop where
  pos : 0 < s.bytes
  le : s.bytes ≤ fillMaxBytes
  whole : s.bytes % 4 = 0
  bound : s.dst + s.bytes ≤ 2 ^ 64

theorem xdmaRows_lt (w h : ℕ) : (xdmaRows w h).1 < 2 ^ 16 := by
  induction w, h using PageTable.xdmaRows.induct with
  | case1 w h hw ih => rwa [xdmaRows, if_pos hw]
  | case2 w h hw =>
    rw [xdmaRows, if_neg hw]
    exact not_le.mp hw

/-- Halving never makes more pixels. -/
theorem xdmaRows_mul_le (w h : ℕ) : (xdmaRows w h).1 * (xdmaRows w h).2 ≤ w * h := by
  induction w, h using PageTable.xdmaRows.induct with
  | case1 w h hw ih =>
    rw [xdmaRows, if_pos hw]
    apply ih.trans
    rw [Nat.mul_comm h 2, ← Nat.mul_assoc]
    exact Nat.mul_le_mul_right h (Nat.div_mul_le_self w 2)
  | case2 w h hw => rw [xdmaRows, if_neg hw]

theorem xdmaRows_of_lt {w : ℕ} (h : ℕ) (hw : w < 2 ^ 16) : xdmaRows w h = (w, h) := by
  rw [xdmaRows]
  exact if_neg (not_le.mpr hw)

/-- More than `2 ^ 16` pixels make at least two rows, and long ones. -/
theorem xdmaRows_of_ge (w h : ℕ) (hw : 2 ^ 16 ≤ w) :
    2 ^ 15 ≤ (xdmaRows w h).1 ∧ h * 2 ≤ (xdmaRows w h).2 := by
  induction w, h using PageTable.xdmaRows.induct with
  | case1 w h hw' ih =>
    rw [xdmaRows, if_pos hw']
    by_cases hw₂ : 2 ^ 16 ≤ w / 2
    · obtain ⟨hwidth, hheight⟩ := ih hw₂
      exact ⟨hwidth, by omega⟩
    · rw [xdmaRows_of_lt _ (not_le.mp hw₂)]
      exact ⟨by omega, le_rfl⟩
  | case2 w h hw' => exact absurd hw hw'

section Rows
variable {value dst width pitch h r a : ℕ}

theorem fillRows_frame (hno : ∀ i, r ≤ i → i < r + h →
    ¬ (dst + i * pitch ≤ a ∧ a < dst + i * pitch + width * 4)) (m : ℕ → ℕ) :
    fillRows value dst width pitch h r m a = m a := by
  induction h generalizing r m with
  | zero => rfl
  | succ h ih =>
    unfold fillRows
    rw [ih (fun i hr hi => hno i (by omega) (by omega))]
    exact if_neg (hno r le_rfl (by omega))

end Rows

section Span
variable {s : Span} {srcData a : ℕ}

/-- Below its span a packet writes nothing. -/
theorem Span.write_below (s : Span) (ha : a < s.dst) (m : ℕ → ℕ) : s.write srcData m a = m a := by
  apply fillRows_frame
  intro i _ _ hi
  omega

/-- A span of less than 256 KiB is one row, written exactly. -/
theorem Span.Fits.write_row (hs : s.Fits) (hrow : s.bytes < 2 ^ 18) (m : ℕ → ℕ) :
    s.write srcData m a =
      if s.dst ≤ a ∧ a < s.dst + s.bytes then byteOf (lower32 srcData) ((a - s.dst) % 4) else m a := by
  have hrows : s.rows = (s.bytes / 4, 1) := xdmaRows_of_lt 1 (by omega)
  have hwhole : s.bytes / 4 * 4 = s.bytes := by
    have := hs.whole
    omega
  unfold Span.write
  rw [hrows]
  simp only [fillRows, fillRow, Nat.zero_mul, Nat.add_zero, hwhole]

variable (srcData) in
/-- A longer span leaves the bytes after its first row: the second row begins at twice the row's
length. -/
theorem Span.write_gap (s : Span) (hrows : 2 ^ 18 ≤ s.bytes) :
    s.dst + s.rows.1 * 4 < s.dst + s.bytes ∧
      ∀ m, s.write srcData m (s.dst + s.rows.1 * 4) = m (s.dst + s.rows.1 * 4) := by
  obtain ⟨hwidth, hheight⟩ := xdmaRows_of_ge (s.bytes / 4) 1 (by omega)
  have hlt := xdmaRows_lt (s.bytes / 4) 1
  change 2 ^ 15 ≤ s.rows.1 at hwidth
  change s.rows.1 < 2 ^ 16 at hlt
  constructor
  · omega
  · intro m
    have hpitch : xdmaPitch s.rows.1 = s.rows.1 * 8 := by
      rw [xdmaPitch, if_neg (by omega)]
    apply fillRows_frame
    intro i _ _ hi
    rw [hpitch] at hi
    -- row 0 ends there, and every other row begins later
    cases i with
    | zero => omega
    | succ i =>
      have hle : s.rows.1 * 8 ≤ (i + 1) * (s.rows.1 * 8) := Nat.le_mul_of_pos_left _ (by omega)
      omega

/-- The size word of a packet. -/
theorem fill_size_word {w h : ℕ} (hw : w < 2 ^ 16) (hh : h < 2 ^ 16) :
    u32 (h <<< 16 ||| w) % 2 ^ 16 = w ∧ u32 (h <<< 16 ||| w) / 2 ^ 16 = h := by
  have hor : h <<< 16 ||| w = h * 2 ^ 16 + w := by
    rw [Nat.shiftLeft_eq, Nat.mul_comm h, ← Nat.two_pow_add_eq_or_of_lt hw, Nat.mul_comm]
  rw [hor]
  unfold PageTable.u32
  omega

/-- The packet of a span. -/
def packet (srcData : ℕ) (s : Span) : List ℕ := xdmaEmitFillBuffer [] srcData s.dst s.bytes

theorem xdmaEmitFillBuffer_eq (ib : List ℕ) (srcData : ℕ) (s : Span) :
    xdmaEmitFillBuffer ib srcData s.dst s.bytes = ib ++ packet srcData s := by
  simp [packet, xdmaEmitFillBuffer]

theorem packet_length (srcData : ℕ) (s : Span) : (packet srcData s).length = 9 := by
  simp [packet, xdmaEmitFillBuffer]

theorem fillExec_packet (hs : s.Fits) (rest : List ℕ) (m : ℕ → ℕ) :
    fillExec (packet srcData s ++ rest) m = fillExec rest (s.write srcData m) := by
  have hmax := hs.le
  have hmul := xdmaRows_mul_le (s.bytes / 4) 1
  have hwidth := xdmaRows_lt (s.bytes / 4) 1
  have hheight : (xdmaRows (s.bytes / 4) 1).2 < 2 ^ 16 := by
    by_cases hge : 2 ^ 16 ≤ s.bytes / 4
    · obtain ⟨hw, -⟩ := xdmaRows_of_ge (s.bytes / 4) 1 hge
      have hle := (Nat.mul_le_mul_right (xdmaRows (s.bytes / 4) 1).2 hw).trans hmul
      rw [show fillMaxBytes = 4194240 from rfl] at hmax
      omega
    · rw [xdmaRows_of_lt _ (not_le.mp hge)]
      exact Nat.one_lt_two_pow (by decide)
  obtain ⟨hlow, hhigh⟩ := fill_size_word hwidth hheight
  have hdst : s.dst < 2 ^ 64 := by
    have := hs.pos
    have := hs.bound
    omega
  have haddr := Memory.lower32_add_upper32 hdst
  unfold packet xdmaEmitFillBuffer
  simp only [List.nil_append, List.cons_append]
  rw [fillExec, if_pos rfl]
  have hexec : execFill (u32 ((xdmaRows (s.bytes / 4) 1).2 <<< 16 ||| (xdmaRows (s.bytes / 4) 1).1) ::
      lower32 srcData :: 0 :: lower32 s.dst :: upper32 s.dst :: 0 ::
      xdmaPitch (xdmaRows (s.bytes / 4) 1).1 :: 0 :: rest) m = s.write srcData m := by
    simp only [execFill, List.getD_cons_zero, List.getD_cons_succ, hlow, hhigh, haddr]
    rfl
  rw [hexec]
  rfl

theorem fillExec_nops (n : ℕ) (m : ℕ → ℕ) : fillExec (List.replicate n gspktNop) m = m := by
  induction n with
  | zero => rw [List.replicate_zero, fillExec]
  | succ n ih => rw [List.replicate_succ, fillExec, if_neg (by decide), ih]

end Span

/-! ### All packets -/

/-- The spans of one node. -/
def nodeSpans (dst byteCount : ℕ) : List Span :=
  if byteCount = 0 then []
  else
    let cur := min byteCount fillMaxBytes
    ⟨dst, cur⟩ :: nodeSpans (dst + cur) (byteCount - cur)
termination_by byteCount
decreasing_by
  have : fillMaxBytes = 4194240 := rfl
  omega

theorem nodeSpans_cons {dst byteCount : ℕ} (h : byteCount ≠ 0) : nodeSpans dst byteCount =
    ⟨dst, min byteCount fillMaxBytes⟩ ::
      nodeSpans (dst + min byteCount fillMaxBytes) (byteCount - min byteCount fillMaxBytes) := by
  rw [nodeSpans, if_neg h]

/-- The spans of a node lie inside the bytes it has in 32 bits, one after the other. -/
theorem nodeSpans_inside {dst byteCount : ℕ} {s : Span} (hs : s ∈ nodeSpans dst byteCount) :
    dst ≤ s.dst ∧ s.dst + s.bytes ≤ dst + byteCount := by
  induction dst, byteCount using nodeSpans.induct with
  | case1 dst => simp [nodeSpans] at hs
  | case2 dst byteCount hne cur ih =>
    rw [nodeSpans_cons hne] at hs
    have hcur : cur ≤ byteCount := min_le_left _ _
    rcases List.mem_cons.mp hs with rfl | hs
    · exact ⟨le_rfl, Nat.add_le_add_left hcur dst⟩
    · have := ih hs
      omega

theorem nodeSpans_fits {dst byteCount : ℕ} (hwhole : byteCount % 4 = 0)
    (hle : dst + byteCount ≤ 2 ^ 64) {s : Span} (hs : s ∈ nodeSpans dst byteCount) : s.Fits := by
  have hmax : fillMaxBytes = 4194240 := rfl
  induction dst, byteCount using nodeSpans.induct with
  | case1 dst => simp [nodeSpans] at hs
  | case2 dst byteCount hne cur ih =>
    have hcur : cur = min byteCount 4194240 := rfl
    rw [nodeSpans_cons hne] at hs
    rcases List.mem_cons.mp hs with rfl | hs
    · constructor
      · show 0 < cur
        omega
      · show cur ≤ fillMaxBytes
        omega
      · show cur % 4 = 0
        omega
      · show dst + cur ≤ 2 ^ 64
        omega
    · exact ih (by omega) (by omega) hs

/-- No byte belongs to both. -/
def Span.Apart (s s' : Span) : Prop := s.dst + s.bytes ≤ s'.dst ∨ s'.dst + s'.bytes ≤ s.dst

instance : Std.Symm Span.Apart := ⟨fun _ _ h => Or.symm h⟩

theorem nodeSpans_apart (dst byteCount : ℕ) : (nodeSpans dst byteCount).Pairwise Span.Apart := by
  induction dst, byteCount using nodeSpans.induct with
  | case1 dst => simp [nodeSpans]
  | case2 dst byteCount hne cur ih =>
    rw [nodeSpans_cons hne, List.pairwise_cons]
    refine ⟨fun s hs => ?_, ih⟩
    exact .inl (nodeSpans_inside hs).1

theorem fillNode_eq (srcData : ℕ) (ib : List ℕ) {dst byteCount : ℕ}
    (hle : dst + byteCount ≤ 2 ^ 64) : fillNode srcData ib dst byteCount =
      ib ++ (nodeSpans dst byteCount).flatMap (packet srcData) := by
  induction dst, byteCount using nodeSpans.induct generalizing ib with
  | case1 dst => rw [fillNode, nodeSpans, if_pos rfl, if_pos rfl, List.flatMap_nil, List.append_nil]
  | case2 dst byteCount hne cur ih =>
    have hcur : cur ≤ byteCount := min_le_left _ _
    rw [fillNode, if_neg hne, nodeSpans_cons hne, List.flatMap_cons]
    dsimp only
    by_cases hlast : byteCount - cur = 0
    · -- the address after the last packet is not used
      rw [hlast, fillNode, if_pos rfl, nodeSpans, if_pos rfl, List.flatMap_nil, List.append_nil]
      exact xdmaEmitFillBuffer_eq ib srcData ⟨dst, cur⟩
    · have haddr : u64 (dst + cur) = dst + cur := by
        apply Nat.mod_eq_of_lt
        omega
      have hemit := xdmaEmitFillBuffer_eq ib srcData ⟨dst, cur⟩
      dsimp only at hemit
      rw [haddr, ih _ (by omega), hemit, List.append_assoc]

/-- The spans of all nodes. -/
def spans (gpuOffset : ℕ) (nodes : List Node) : List Span :=
  nodes.flatMap fun n => nodeSpans (mmNodeAddr gpuOffset n) (byteCount n)

section Nodes
variable {gpuOffset srcData : ℕ} {nodes : List Node} {n : Node}

theorem byteCount_le (n : Node) : byteCount n ≤ n.size * pageSize := Nat.mod_le _ _

theorem mmNodeAddr_eq (hb : (n.start + n.size) * pageSize + gpuOffset ≤ 2 ^ 64) :
    mmNodeAddr gpuOffset n = n.start * pageSize + gpuOffset := by
  have hpos := n.size_pos
  have hpage : pageSize = 16384 := rfl
  rw [hpage] at hb
  unfold mmNodeAddr u64
  rw [hpage]
  omega

theorem mmNodeAddr_add_le (hb : (n.start + n.size) * pageSize + gpuOffset ≤ 2 ^ 64) :
    mmNodeAddr gpuOffset n + byteCount n ≤ 2 ^ 64 := by
  rw [mmNodeAddr_eq hb]
  have := byteCount_le n
  rw [Nat.add_mul] at hb
  omega

theorem numPages_sub (n : Node) (rest : List Node) (hlt : nodePages (n :: rest) < 2 ^ 64) :
    nodePages (n :: rest) ≠ 0 ∧
      u64 (nodePages (n :: rest) + (2 ^ 64 - n.size)) = nodePages rest := by
  have hpos := n.size_pos
  simp only [nodePages, List.map_cons, List.sum_cons] at hlt ⊢
  unfold u64
  omega

variable (srcData) in
/-- The loop over the nodes emits the packets of all their spans. -/
theorem fillNodes_eq (ib : List ℕ) (hlt : nodePages nodes < 2 ^ 64)
    (hb : ∀ n ∈ nodes, (n.start + n.size) * pageSize + gpuOffset ≤ 2 ^ 64) :
    fillNodes srcData gpuOffset nodes (nodePages nodes) ib =
      some (ib ++ (spans gpuOffset nodes).flatMap (packet srcData)) := by
  induction nodes generalizing ib with
  | nil => simp [fillNodes, nodePages, spans]
  | cons n rest ih =>
    obtain ⟨hne, hsub⟩ := numPages_sub n rest hlt
    have hrest : nodePages rest < 2 ^ 64 := by
      rw [← hsub]
      exact Nat.mod_lt _ (by decide)
    rw [fillNodes, if_neg hne, hsub, ih _ hrest (fun n' hn' => hb n' (by simp [hn'])),
      fillNode_eq _ _ (mmNodeAddr_add_le (hb n (by simp)))]
    simp [spans]

/-- The loop that counts needs no more nodes than there are. -/
theorem countLoops_isSome (loops : ℕ) (hlt : nodePages nodes < 2 ^ 64) :
    ∃ k, countLoops nodes (nodePages nodes) loops = some k := by
  induction nodes generalizing loops with
  | nil => exact ⟨loops, by simp [countLoops, nodePages]⟩
  | cons n rest ih =>
    obtain ⟨hne, hsub⟩ := numPages_sub n rest hlt
    have hrest : nodePages rest < 2 ^ 64 := by
      rw [← hsub]
      exact Nat.mod_lt _ (by decide)
    rw [countLoops, if_neg hne, hsub]
    exact ih _ hrest

/-- With small nodes there is one packet for each. -/
theorem countLoops_small {loops : ℕ} (hlt : nodePages nodes < 2 ^ 64) (hl : loops < 2 ^ 32)
    (hsmall : ∀ n ∈ nodes, n.size < 16) :
    countLoops nodes (nodePages nodes) loops = some (u32 (loops + nodes.length)) := by
  induction nodes generalizing loops with
  | nil =>
    have hu : u32 loops = loops := Nat.mod_eq_of_lt hl
    simp [countLoops, nodePages, hu]
  | cons n rest ih =>
    obtain ⟨hne, hsub⟩ := numPages_sub n rest hlt
    have hrest : nodePages rest < 2 ^ 64 := by
      rw [← hsub]
      exact Nat.mod_lt _ (by decide)
    have hone : fillLoops (byteCount n) = 1 := by
      have hsize := hsmall n (by simp)
      have hpos := n.size_pos
      have hmax : fillMaxBytes = 4194240 := rfl
      have hpage : pageSize = 16384 := rfl
      unfold fillLoops byteCount u32
      rw [hmax, hpage]
      omega
    have hl' : u32 (loops + fillLoops (byteCount n)) < 2 ^ 32 := Nat.mod_lt _ (by decide)
    rw [countLoops, if_neg hne, hsub, ih hrest hl' (fun n' hn' => hsmall n' (by simp [hn'])), hone]
    congr 1
    unfold u32
    rw [List.length_cons, Nat.mod_add_mod]
    congr 1
    omega

end Nodes

/-- Running the packets of spans. -/
def writeSpans (srcData : ℕ) (ss : List Span) (m : ℕ → ℕ) : ℕ → ℕ :=
  ss.foldl (fun m s => s.write srcData m) m

theorem fillExec_spans {srcData : ℕ} {ss : List Span} (hfits : ∀ s ∈ ss, s.Fits) (n : ℕ)
    (m : ℕ → ℕ) : fillExec (ss.flatMap (packet srcData) ++ List.replicate n gspktNop) m =
      writeSpans srcData ss m := by
  induction ss generalizing m with
  | nil => exact fillExec_nops n m
  | cons s ss ih =>
    rw [List.flatMap_cons, List.append_assoc, fillExec_packet (hfits s (by simp)),
      ih (fun s' hs' => hfits s' (by simp [hs']))]
    rfl

theorem writeSpans_frame {srcData a : ℕ} {ss : List Span}
    (hno : ∀ s ∈ ss, ∀ m, s.write srcData m a = m a) (m : ℕ → ℕ) :
    writeSpans srcData ss m a = m a := by
  induction ss generalizing m with
  | nil => rfl
  | cons s ss ih =>
    have hrest := ih (fun s' hs' => hno s' (by simp [hs'])) (s.write srcData m)
    exact hrest.trans (hno s (by simp) m)

/-- Short spans that are apart are written exactly. -/
theorem writeSpans_rows {srcData a : ℕ} {ss : List Span} (hfits : ∀ s ∈ ss, s.Fits)
    (hrows : ∀ s ∈ ss, s.bytes < 2 ^ 18) (hapart : ss.Pairwise Span.Apart) {s : Span}
    (hs : s ∈ ss) (ha : s.dst ≤ a ∧ a < s.dst + s.bytes) (m : ℕ → ℕ) :
    writeSpans srcData ss m a = byteOf (lower32 srcData) ((a - s.dst) % 4) := by
  induction ss generalizing m with
  | nil => cases hs
  | cons t ss ih =>
    rw [List.pairwise_cons] at hapart
    rcases List.mem_cons.mp hs with rfl | hs
    · have hframe : writeSpans srcData ss (s.write srcData m) a = s.write srcData m a := by
        apply writeSpans_frame
        intro t ht m
        rw [(hfits t (by simp [ht])).write_row (hrows t (by simp [ht])), if_neg]
        have hap := hapart.1 t ht
        unfold Span.Apart at hap
        omega
      refine hframe.trans ?_
      rw [(hfits s (by simp)).write_row (hrows s (by simp)), if_pos ha]
    · exact ih (fun s' hs' => hfits s' (by simp [hs'])) (fun s' hs' => hrows s' (by simp [hs']))
        hapart.2 hs _

/-! ### The buffer -/

theorem byteOf_lt (value i : ℕ) : byteOf value i < 256 := Nat.mod_lt _ (by decide)

theorem byteOf_lower32 (value : ℕ) {i : ℕ} (hi : i < 4) :
    byteOf (lower32 value) i = byteOf value i := by
  unfold byteOf Memory.lower32
  have hcases : i = 0 ∨ i = 1 ∨ i = 2 ∨ i = 3 := by omega
  rcases hcases with rfl | rfl | rfl | rfl <;> omega

section Buffer
variable {bo : Bo} {srcData : ℕ} {n n' : Node}

theorem byteCount_whole (n : Node) : byteCount n % 4 = 0 := by
  have hpage : pageSize = 16384 := rfl
  unfold byteCount u32
  rw [hpage]
  omega

theorem Placed.mmNodeAddr_eq (hp : Placed bo) (hn : n ∈ bo.nodes) :
    mmNodeAddr bo.gpuOffset n = n.start * pageSize + bo.gpuOffset :=
  Fill.mmNodeAddr_eq (hp.bound n hn)

/-- Two nodes are the same or have no byte in common. -/
theorem Placed.eq_or_apart (hp : Placed bo) (hn : n ∈ bo.nodes) (hn' : n' ∈ bo.nodes) :
    n = n' ∨ ∀ a, InNode bo.gpuOffset n a → ¬ InNode bo.gpuOffset n' a := by
  by_cases heq : n = n'
  · exact .inl heq
  · right
    have hsymm : Std.Symm fun n n' : Node =>
        n.start + n.size ≤ n'.start ∨ n'.start + n'.size ≤ n.start := ⟨fun _ _ h => Or.symm h⟩
    have hd := hp.disjoint.forall hn hn' heq
    have hpage : pageSize = 16384 := rfl
    intro a ha ha'
    unfold InNode at ha ha'
    rw [hp.mmNodeAddr_eq hn, hpage] at ha
    rw [hp.mmNodeAddr_eq hn', hpage] at ha'
    omega

theorem mem_spans {gpuOffset : ℕ} {nodes : List Node} {s : Span} :
    s ∈ spans gpuOffset nodes ↔
      ∃ n ∈ nodes, s ∈ nodeSpans (mmNodeAddr gpuOffset n) (byteCount n) := List.mem_flatMap

theorem Placed.spans_fits (hp : Placed bo) {s : Span} (hs : s ∈ spans bo.gpuOffset bo.nodes) :
    s.Fits := by
  obtain ⟨n, hn, hs⟩ := mem_spans.mp hs
  exact nodeSpans_fits (byteCount_whole n) (mmNodeAddr_add_le (hp.bound n hn)) hs

/-- A byte of a span is a byte of its node. -/
theorem inNode_of_span {gpuOffset a : ℕ} {s : Span}
    (hs : s ∈ nodeSpans (mmNodeAddr gpuOffset n) (byteCount n))
    (ha : s.dst ≤ a ∧ a < s.dst + s.bytes) :
    InNode gpuOffset n a ∧ a < mmNodeAddr gpuOffset n + byteCount n := by
  have hin := nodeSpans_inside hs
  have hle := byteCount_le n
  unfold InNode
  omega

theorem Placed.spans_apart (hp : Placed bo) : (spans bo.gpuOffset bo.nodes).Pairwise Span.Apart := by
  unfold spans
  rw [List.pairwise_flatMap]
  refine ⟨fun n _ => nodeSpans_apart _ _, ?_⟩
  apply hp.disjoint.imp_of_mem
  intro n n' hn hn' hd s hs s' hs'
  have hpage : pageSize = 16384 := rfl
  have hin := nodeSpans_inside hs
  have hin' := nodeSpans_inside hs'
  have hle := byteCount_le n
  have hle' := byteCount_le n'
  rw [hp.mmNodeAddr_eq hn] at hin
  rw [hp.mmNodeAddr_eq hn'] at hin'
  rw [hpage] at hin hin' hle hle'
  unfold Span.Apart
  omega

/-- What the packets do to memory that holds no byte yet. -/
def blank (srcData : ℕ) (bo : Bo) : ℕ → ℕ :=
  writeSpans srcData (spans bo.gpuOffset bo.nodes) fun _ => 256

/-- If every byte of every node is written, no packet has a second row. The byte after the first
row of the lowest such packet is written by none. -/
theorem Placed.rows_of_covered (hp : Placed bo)
    (hcov : ∀ n ∈ bo.nodes, ∀ a, InNode bo.gpuOffset n a → blank srcData bo a ≠ 256) {s : Span}
    (hs : s ∈ spans bo.gpuOffset bo.nodes) : s.bytes < 2 ^ 18 := by
  induction hk : s.dst using Nat.strong_induction_on generalizing s with
  | _ k ih =>
    subst hk
    by_contra hlong
    obtain ⟨hgap, hsame⟩ := s.write_gap srcData (not_lt.mp hlong)
    obtain ⟨n, hn, hsn⟩ := mem_spans.mp hs
    apply hcov n hn _ (inNode_of_span hsn ⟨Nat.le_add_right _ _, hgap⟩).1
    apply writeSpans_frame
    intro t ht m
    by_cases hts : t = s
    · rw [hts]
      exact hsame m
    · have hap := hp.spans_apart.forall ht hs hts
      unfold Span.Apart at hap
      by_cases hrow : t.bytes < 2 ^ 18
      · rw [(hp.spans_fits ht).write_row hrow, if_neg]
        omega
      · have hnot : ¬ t.dst < s.dst := fun hlt => hrow (ih t.dst hlt ht rfl)
        apply t.write_below
        have := (hp.spans_fits ht).pos
        omega

variable (srcData) in
/-- If every byte of every node is written, the nodes are small. -/
theorem Placed.small_of_covered (hp : Placed bo)
    (hcov : ∀ n ∈ bo.nodes, ∀ a, InNode bo.gpuOffset n a → blank srcData bo a ≠ 256)
    (hn : n ∈ bo.nodes) : n.size < 16 := by
  by_contra hbig
  have hpage : pageSize = 16384 := rfl
  have hmax : fillMaxBytes = 4194240 := rfl
  have hrows := fun s hs => hp.rows_of_covered hcov (s := s) hs
  have hlt : byteCount n < 2 ^ 18 := by
    by_contra hlong
    have hfirst : ⟨mmNodeAddr bo.gpuOffset n, min (byteCount n) fillMaxBytes⟩ ∈
        spans bo.gpuOffset bo.nodes := by
      rw [mem_spans]
      refine ⟨n, hn, ?_⟩
      rw [nodeSpans_cons (by omega)]
      exact List.mem_cons_self
    have := hrows _ hfirst
    dsimp only at this
    omega
  -- the byte after what is left of the size in 32 bits
  have hin : InNode bo.gpuOffset n (mmNodeAddr bo.gpuOffset n + byteCount n) := by
    unfold InNode
    rw [hpage]
    omega
  apply hcov n hn _ hin
  apply writeSpans_frame
  intro s hs m
  rw [(hp.spans_fits hs).write_row (hrows s hs), if_neg]
  intro ha
  obtain ⟨n', hn', hs'⟩ := mem_spans.mp hs
  obtain ⟨hin', hlt'⟩ := inNode_of_span hs' ha
  rcases hp.eq_or_apart hn hn' with rfl | hap
  · exact lt_irrefl _ hlt'
  · exact hap _ hin hin'

section Small
variable (hsmall : ∀ n ∈ bo.nodes, n.size < 16)
include hsmall

/-- A small node is one span. -/
theorem nodeSpans_small (hn : n ∈ bo.nodes) :
    nodeSpans (mmNodeAddr bo.gpuOffset n) (byteCount n) =
      [⟨mmNodeAddr bo.gpuOffset n, n.size * pageSize⟩] ∧ n.size * pageSize < 2 ^ 18 := by
  have hsize := hsmall n hn
  have hpos := n.size_pos
  have hpage : pageSize = 16384 := rfl
  have hmax : fillMaxBytes = 4194240 := rfl
  have hcount : byteCount n = n.size * pageSize := by
    unfold byteCount u32
    rw [hpage]
    omega
  have hmin : min (n.size * pageSize) fillMaxBytes = n.size * pageSize := by
    rw [hpage, hmax]
    omega
  constructor
  · rw [hcount, nodeSpans_cons (by rw [hpage]; omega), hmin, Nat.sub_self, nodeSpans, if_pos rfl]
  · rw [hpage]
    omega

theorem spans_length : (spans bo.gpuOffset bo.nodes).length = bo.nodes.length := by
  unfold spans
  rw [List.length_flatMap]
  have hone : bo.nodes.map (fun n =>
      (nodeSpans (mmNodeAddr bo.gpuOffset n) (byteCount n)).length) = bo.nodes.map fun _ => 1 := by
    apply List.map_congr_left
    intro n hn
    rw [(nodeSpans_small hsmall hn).1, List.length_singleton]
  rw [hone]
  simp

theorem spans_small {s : Span} (hs : s ∈ spans bo.gpuOffset bo.nodes) : ∃ n ∈ bo.nodes,
    s = ⟨mmNodeAddr bo.gpuOffset n, n.size * pageSize⟩ ∧ s.bytes < 2 ^ 18 := by
  obtain ⟨n, hn, hs⟩ := mem_spans.mp hs
  obtain ⟨hone, hlt⟩ := nodeSpans_small hsmall hn
  rw [hone, List.mem_singleton] at hs
  exact ⟨n, hn, hs, by rw [hs]; exact hlt⟩

end Small

/-- A call never reads past the nodes: it fails, or it submits the packets of all spans. -/
theorem fillBuffer_cases (env : Env) (hp : Placed bo) (srcData : ℕ) : ∃ numLoops,
    countLoops bo.nodes bo.numPages 0 = some numLoops ∧
    ((∃ e, fillBuffer env bo srcData = some (.error e)) ∨ fillBuffer env bo srcData = some (.ok
      ⟨xdmaRingPadIb ((spans bo.gpuOffset bo.nodes).flatMap (packet srcData)),
        u32 (u32 (u32 (numLoops * fillNumDw) + 64) * 4)⟩)) := by
  have hlt := hp.numPages_lt
  rw [hp.numPages] at hlt
  have hib := fillNodes_eq srcData [] hlt hp.bound
  rw [← hp.numPages, List.nil_append] at hib
  obtain ⟨k, hk⟩ := countLoops_isSome 0 hlt
  rw [← hp.numPages] at hk
  refine ⟨k, hk, ?_⟩
  unfold fillBuffer
  simp only [hk, hib]
  cases env.enabled with
  | false => simp
  | true =>
    cases (if bo.tt then env.allocGart else .ok () : Except Errno Unit) with
    | error e => simp
    | ok _ =>
      by_cases hsize : PageTable.ibPoolSize < u32 (u32 (u32 (k * fillNumDw) + 64) * 4)
      · simp [hsize]
      · cases env.alloc with
        | error e => simp [hsize]
        | ok _ =>
          cases env.sync with
          | error e => simp [hsize]
          | ok _ => cases env.submit <;> simp [hsize]

theorem fillExec_padded (hp : Placed bo) (m : ℕ → ℕ) :
    fillExec (xdmaRingPadIb ((spans bo.gpuOffset bo.nodes).flatMap (packet srcData))) m =
      writeSpans srcData (spans bo.gpuOffset bo.nodes) m :=
  fillExec_spans (fun _ hs => hp.spans_fits hs) _ m

/-- The buffer is filled exactly when its nodes are small. -/
theorem fillsExactly_iff (hp : Placed bo) (srcData : ℕ) :
    FillsExactly bo srcData
      (xdmaRingPadIb ((spans bo.gpuOffset bo.nodes).flatMap (packet srcData))) ↔
    ∀ n ∈ bo.nodes, n.size < 16 := by
  constructor
  · intro h n hn
    apply hp.small_of_covered srcData _ hn
    intro n' hn' a ha heq
    obtain ⟨i, rfl⟩ := Nat.exists_eq_add_of_le ha.1
    have hin := h.inside (fun _ => 256) n' hn' i (Nat.lt_of_add_lt_add_left ha.2)
    rw [fillExec_padded hp] at hin
    have hlt := byteOf_lt srcData (i % 4)
    rw [← hin] at hlt
    exact absurd heq hlt.ne
  · intro hsmall
    have hrows : ∀ s ∈ spans bo.gpuOffset bo.nodes, s.bytes < 2 ^ 18 := by
      intro s hs
      obtain ⟨-, -, -, hlt⟩ := spans_small hsmall hs
      exact hlt
    constructor
    · intro m n hn i hi
      have hmem : ⟨mmNodeAddr bo.gpuOffset n, n.size * pageSize⟩ ∈ spans bo.gpuOffset bo.nodes := by
        rw [mem_spans]
        refine ⟨n, hn, ?_⟩
        rw [(nodeSpans_small hsmall hn).1]
        exact List.mem_cons_self
      rw [fillExec_padded hp, writeSpans_rows (fun _ hs => hp.spans_fits hs) hrows hp.spans_apart hmem
        ⟨Nat.le_add_right _ _, Nat.add_lt_add_left hi _⟩]
      dsimp only
      rw [Nat.add_sub_cancel_left, byteOf_lower32 _ (Nat.mod_lt _ (by decide))]
    · intro m a hno
      rw [fillExec_padded hp]
      apply writeSpans_frame
      intro s hs m
      rw [(hp.spans_fits hs).write_row (hrows s hs), if_neg]
      intro ha
      obtain ⟨n, hn, rfl, -⟩ := spans_small hsmall hs
      exact hno n hn ha

/-- The IB fits the allocation while the number of dwords does not wrap. -/
theorem fits_iff (hsmall : ∀ n ∈ bo.nodes, n.size < 16) (srcData : ℕ) :
    (xdmaRingPadIb ((spans bo.gpuOffset bo.nodes).flatMap (packet srcData))).length * 4 ≤
      u32 (u32 (u32 (u32 (0 + bo.nodes.length) * fillNumDw) + 64) * 4) ↔
    9 * bo.nodes.length + 64 < 2 ^ 30 := by
  have hlen : ((spans bo.gpuOffset bo.nodes).flatMap (packet srcData)).length =
      9 * bo.nodes.length := by
    rw [List.length_flatMap, ← spans_length hsmall]
    simp only [packet_length, List.map_const', List.sum_replicate_nat]
    omega
  have hdw : fillNumDw = 9 := rfl
  unfold PageTable.xdmaRingPadIb u32
  rw [List.length_append, List.length_replicate, hlen, hdw]
  omega

/-- A call of `gsgpu_fill_buffer` that returns 0 fills exactly the buffer, with an IB that fits
its allocation, exactly when every node is of less than 16 pages and there are less than `2 ^ 30`
dwords: a longer packet has rows of 4 bytes a pixel at a pitch of 8 bytes a pixel. -/
theorem fillBuffer_exact_iff {env : Env} {r : Filled} (hp : Placed bo)
    (h : fillBuffer env bo srcData = some (.ok r)) :
    (FillsExactly bo srcData r.ib ∧ r.ib.length * 4 ≤ r.allocated) ↔
    (∀ n ∈ bo.nodes, n.size < 16) ∧ 9 * bo.nodes.length + 64 < 2 ^ 30 := by
  obtain ⟨k, hk, hcases⟩ := fillBuffer_cases env hp srcData
  rw [h] at hcases
  obtain ⟨e, he⟩ | hr := hcases
  · cases he
  cases hr
  rw [fillsExactly_iff hp]
  apply and_congr_right
  intro hsmall
  have hlt := hp.numPages_lt
  rw [hp.numPages] at hlt hk
  rw [countLoops_small hlt (by decide) hsmall] at hk
  cases hk
  exact fits_iff hsmall srcData

end Buffer

/-- Every call succeeds. -/
def succeeds : Env := ⟨true, .ok (), .ok (), .ok (), .ok ()⟩

/-- A BO in VRAM of one node. -/
def oneNode (size : ℕ) (hpos : 0 < size) (hlt : size < 2 ^ 50) : Bo :=
  ⟨size, [⟨0, size, hpos, hlt⟩], false, 0⟩

theorem oneNode_placed {size : ℕ} (hpos : 0 < size) (hlt : size < 2 ^ 50) :
    Placed (oneNode size hpos hlt) := by
  constructor
  · simp [oneNode, nodePages]
  · exact hlt.trans (by decide)
  · exact List.pairwise_singleton _ _
  · intro n hn
    rw [oneNode, List.mem_singleton] at hn
    subst hn
    have hpage : pageSize = 16384 := rfl
    simp only [oneNode, hpage]
    omega

/-- The packet of 16 pages has rows of `0x8000` pixels, and the bytes between them are not written. -/
theorem sixteenPages_not_filled : ∃ r,
    fillBuffer succeeds (oneNode 16 (by decide) (by decide)) 0 = some (.ok r) ∧
      ¬ FillsExactly (oneNode 16 (by decide) (by decide)) 0 r.ib := by
  have hp : Placed (oneNode 16 (by decide) (by decide)) := oneNode_placed (by decide) (by decide)
  have hsubmits : ∃ r, fillBuffer succeeds (oneNode 16 (by decide) (by decide)) 0 = some (.ok r) := by
    simp [fillBuffer, succeeds, oneNode, countLoops, fillNodes, fillLoops, byteCount, PageTable.u32,
      Vm.u64, fillMaxBytes, pageSize, fillNumDw, PageTable.ibPoolSize]
  obtain ⟨r, hr⟩ := hsubmits
  obtain ⟨k, -, ⟨e, he⟩ | hok⟩ := fillBuffer_cases succeeds hp 0
  · rw [hr] at he
    cases he
  · refine ⟨_, hok, ?_⟩
    rw [fillsExactly_iff hp]
    intro hsmall
    have hlt : 16 < 16 := hsmall ⟨0, 16, by decide, by decide⟩ List.mem_cons_self
    omega

theorem fillBuffer_exact_onePage : ∃ r,
    fillBuffer succeeds (oneNode 1 (by decide) (by decide)) 0 = some (.ok r) ∧
      ((FillsExactly (oneNode 1 (by decide) (by decide)) 0 r.ib ∧ r.ib.length * 4 ≤ r.allocated) ↔
        (∀ n ∈ (oneNode 1 (by decide) (by decide)).nodes, n.size < 16) ∧
          9 * (oneNode 1 (by decide) (by decide)).nodes.length + 64 < 2 ^ 30) := by
  have hsubmits : ∃ r, fillBuffer succeeds (oneNode 1 (by decide) (by decide)) 0 = some (.ok r) := by
    simp [fillBuffer, succeeds, oneNode, countLoops, fillNodes, fillLoops, byteCount, PageTable.u32,
      Vm.u64, fillMaxBytes, pageSize, fillNumDw, PageTable.ibPoolSize]
  obtain ⟨r, hr⟩ := hsubmits
  exact ⟨r, hr, fillBuffer_exact_iff (oneNode_placed (by decide) (by decide)) hr⟩

end Gsgpu.Fill
