import DsAlgor.Lib.CArray
import Mathlib.Data.List.Basic
import Mathlib.Tactic

/-!
# The buffered reader

`get` of `read_block.c`. The state is the stream and the static variable `left`. `read_block` itself
is given from outside: it is a parameter, and `ReadsBlocks` is what the comment of the file says of
it. `get` does not use the number that it returns. A new array holds zeros.

`left` says how many bytes of the last block are still to be returned, but the block itself is in a
local array: the next call finds zeros there. And the array that `get` returns has all `size` bytes
also when the stream has ended. Everything else is right: a byte is returned in its place unless it
is one of those that were left over (`get_spec`), so what is returned is a prefix of the stream
exactly when the left over bytes are zeros and the stream is long enough (`gets_prefix_iff`).
-/

namespace ReadBlock

open CArray

abbrev Byte := UInt8

/-- The stream, as `read_block` finds it, and the bytes of the last block that are still to be
returned. -/
structure Reader (σ : Type) where
  stream : σ
  left : Nat

/-- The variables of the loop of `get`. -/
structure Loop (σ : Type) where
  result : Nat → Byte
  p : Nat
  need : Nat
  buffer : Nat → Byte
  stream : σ

section
variable {σ : Type} (readBlock : (Nat → Byte) → σ → (Nat → Byte) × σ)

/-- `read_block` writes the next bytes of the stream to the buffer, `window` of them where there are
so many, and the next call goes on behind them; `rest` is what a stream has left. -/
structure ReadsBlocks (window : Nat) (rest : σ → List Byte) : Prop where
  buffer : ∀ buffer stream i, i < window → i < (rest stream).length →
    (readBlock buffer stream).1 i = (rest stream).getD i 0
  stream : ∀ buffer stream, rest (readBlock buffer stream).2 = (rest stream).drop window

/-- `while (need > window)`. -/
def Loop.run (window : Nat) [NeZero window] (l : Loop σ) : Loop σ :=
  if l.need > window then
    let (buffer, stream) := readBlock l.buffer l.stream
    Loop.run window ⟨memmove l.result l.p buffer 0 window, l.p + window, l.need - window,
      buffer, stream⟩
  else l
termination_by l.need
decreasing_by
  have := NeZero.pos window
  omega

variable (window : Nat) [NeZero window]

def get (r : Reader σ) (size : Nat) : List Byte × Reader σ :=
  let buffer : Nat → Byte := fun _ => 0
  let result : Nat → Byte := fun _ => 0
  let (buffer, stream) :=
    if r.left = 0 then readBlock buffer r.stream else (buffer, r.stream)
  let left := if r.left = 0 then window else r.left
  if left > size then
    ((List.range size).map (memmove result 0 buffer (window - left) size), ⟨stream, left - size⟩)
  else
    let result := memmove result 0 buffer (window - left) left
    let l := Loop.run readBlock window ⟨result, left, size - left, buffer, stream⟩
    let (buffer, stream) := readBlock l.buffer l.stream
    ((List.range size).map (memmove l.result l.p buffer 0 l.need), ⟨stream, window - l.need⟩)

/-- The arrays that a sequence of calls returns. -/
def gets : Reader σ → List Nat → List (List Byte)
  | _, [] => []
  | r, size :: sizes =>
    (get readBlock window r size).1 :: gets (get readBlock window r size).2 sizes

end

/-! ## What is left over -/

/-- `left` after a call, from the sizes alone. -/
def leftOver (window left size : Nat) : Nat :=
  let avail := if left = 0 then window else left
  if size < avail then avail - size
  else if size = avail then window
  else window - 1 - (size - avail - 1) % window

/-- The calls that find bytes left over should return zeros for these; `done` bytes have been
returned. -/
def Blank (window : Nat) (stream : List Byte) : Nat → Nat → List Nat → Prop
  | _, _, [] => True
  | done, left, size :: sizes =>
    (∀ b ∈ (stream.drop done).take (min left size), b = 0) ∧
      Blank window stream (done + size) (leftOver window left size) sizes

/-! ## One call -/

section
variable {σ : Type} {readBlock : (Nat → Byte) → σ → (Nat → Byte) × σ} {rest : σ → List Byte}
  {window : Nat} {S : List Byte} {done left : Nat}

/-- The first `p` bytes of `result`: the bytes of `S` from `done` on, with zeros for the first
`left`. -/
def Filled (S : List Byte) (done left : Nat) (result : Nat → Byte) (p : Nat) : Prop :=
  ∀ j < p, done + j < S.length → result j = if j < left then 0 else S.getD (done + j) 0

section
variable (R : ReadsBlocks readBlock window rest)
include R

theorem ReadsBlocks.getD {buffer : Nat → Byte} {stream : σ} {pos i : Nat}
    (hstream : rest stream = S.drop pos) (hi : i < window) (hS : pos + i < S.length) :
    (readBlock buffer stream).1 i = S.getD (pos + i) 0 := by
  have hlen : i < (rest stream).length := by
    rw [hstream, List.length_drop]
    omega
  rw [R.buffer buffer stream i hi hlen, hstream, List.getD_eq_getElem?_getD,
    List.getD_eq_getElem?_getD, List.getElem?_drop]

theorem ReadsBlocks.drop {buffer : Nat → Byte} {stream : σ} {pos : Nat}
    (hstream : rest stream = S.drop pos) :
    rest (readBlock buffer stream).2 = S.drop (pos + window) := by
  rw [R.stream, hstream, List.drop_drop]

/-- The copy of the first `n` bytes of a block that has just been read. -/
theorem Filled.memmove {result : Nat → Byte} {stream : σ} {p n : Nat}
    (h : Filled S done left result p) (buffer : Nat → Byte) (hleft : left ≤ p) (hn : n ≤ window)
    (hstream : rest stream = S.drop (done + p)) :
    Filled S done left (memmove result p (readBlock buffer stream).1 0 n) (p + n) := by
  intro j hj hS
  unfold CArray.memmove
  by_cases hjp : j < p
  · rw [if_neg (by omega)]
    exact h j hjp hS
  · rw [if_pos (by omega), if_neg (by omega), Nat.zero_add,
      R.getD hstream (by omega) (by omega), show done + p + (j - p) = done + j by omega]

/-- The loop reads whole blocks until at most one is needed. -/
theorem Loop.run_spec [NeZero window] (l : Loop σ)
    (hstream : rest l.stream = S.drop (done + l.p)) (hleft : left ≤ l.p)
    (hfilled : Filled S done left l.result l.p) : let l' := l.run readBlock window
    rest l'.stream = S.drop (done + l'.p) ∧ left ≤ l'.p ∧ Filled S done left l'.result l'.p ∧
      l'.p + l'.need = l.p + l.need ∧ l'.need = if l.need = 0 then 0 else
        (l.need - 1) % window + 1 := by
  have hpos := NeZero.pos window
  fun_induction Loop.run readBlock window l with
  | case1 l hgt buffer stream heq ih =>
    have hbuffer : buffer = (readBlock l.buffer l.stream).1 := by rw [heq]
    have hrest : stream = (readBlock l.buffer l.stream).2 := by rw [heq]
    obtain ⟨h1, h2, h3, h4, h5⟩ := ih (by rw [hrest, R.drop hstream, Nat.add_assoc])
      (by dsimp only; omega)
      (by rw [hbuffer]; exact hfilled.memmove R l.buffer hleft le_rfl hstream)
    refine ⟨h1, h2, h3, by dsimp only at h4; omega, ?_⟩
    have hmod : (l.need - 1) % window = (l.need - window - 1) % window := by
      rw [Nat.mod_eq_sub_mod (by omega)]
      congr 1
      omega
    dsimp only at h5
    rw [h5, if_neg (by omega), if_neg (by omega), hmod]
  | case2 l hle =>
    refine ⟨hstream, hleft, hfilled, rfl, ?_⟩
    by_cases hneed : l.need = 0
    · rw [if_pos hneed, hneed]
    · rw [if_neg hneed, Nat.mod_eq_of_lt (by omega)]
      omega

/-- The buffer a call starts with: the block it has just read, or zeros for the bytes left over. -/
theorem filled_start {r : Reader σ} {p : Nat} (hstream : rest r.stream = S.drop (done + r.left))
    (hp : p ≤ if r.left = 0 then window else r.left) : Filled S done r.left (memmove (fun _ => 0) 0
      (if r.left = 0 then readBlock (fun _ => 0) r.stream else (fun _ => 0, r.stream)).1
      (window - if r.left = 0 then window else r.left) p) p := by
  by_cases hleft : r.left = 0
  · simp only [hleft, if_true, Nat.sub_self] at hp hstream ⊢
    have hnil : Filled S done 0 (fun _ => 0) 0 := nofun
    have hfilled := hnil.memmove R (fun _ => 0) le_rfl hp hstream
    rw [Nat.zero_add] at hfilled
    exact hfilled
  · simp only [hleft, if_false] at hp ⊢
    intro j hj _
    unfold CArray.memmove
    rw [if_pos (show j < r.left by omega), ite_self]

/-- A call returns `size` bytes: zeros for those left over, and the bytes of the stream after
them. -/
theorem get_spec [NeZero window] {r : Reader σ}
    (hstream : rest r.stream = S.drop (done + r.left)) (size : Nat) :
    (∃ result, (get readBlock window r size).1 = (List.range size).map result ∧
      Filled S done r.left result size) ∧
      (get readBlock window r size).2.left = leftOver window r.left size ∧
      rest (get readBlock window r size).2.stream =
        S.drop (done + size + leftOver window r.left size) := by
  have hpos := NeZero.pos window
  generalize hleft : (if r.left = 0 then window else r.left) = left
  generalize hblock : (if r.left = 0 then readBlock (fun _ => 0) r.stream else
    (fun _ => 0, r.stream)) = block
  have hrest : rest block.2 = S.drop (done + left) := by
    rw [← hblock, ← hleft]
    split_ifs with h0
    · rw [R.drop hstream, h0]
      rfl
    · exact hstream
  have hstart : ∀ p ≤ left,
      Filled S done r.left (memmove (fun _ => 0) 0 block.1 (window - left) p) p := by
    intro p hp
    rw [← hblock, ← hleft]
    exact filled_start R hstream (hleft ▸ hp)
  have hle : r.left ≤ left := by
    rw [← hleft]
    split_ifs with h0 <;> omega
  unfold get leftOver
  dsimp only
  rw [hblock, hleft]
  by_cases hsize : left > size
  · rw [if_pos hsize, if_pos hsize]
    refine ⟨⟨_, rfl, hstart size hsize.le⟩, rfl, ?_⟩
    dsimp only
    rw [hrest]
    congr 1
    omega
  · rw [if_neg hsize, if_neg hsize]
    have hrun := Loop.run_spec R ⟨memmove (fun _ => 0) 0 block.1 (window - left) left, left,
      size - left, block.1, block.2⟩ hrest hle (hstart left le_rfl)
    generalize Loop.run readBlock window _ = l at hrun ⊢
    dsimp only at hrun
    obtain ⟨hrest', hle', hfilled, hsum, hneed⟩ := hrun
    have hsum' : l.p + l.need = size := by omega
    have hlt := Nat.mod_lt (size - left - 1) hpos
    have hleft' : window - l.need = if size = left then window else window - 1 -
      (size - left - 1) % window := by
      rw [hneed]
      split_ifs <;> omega
    have hwindow : l.need ≤ window := by
      rw [hneed]
      split_ifs <;> omega
    refine ⟨⟨_, rfl, ?_⟩, hleft', ?_⟩
    · have hlast := hfilled.memmove R l.buffer hle' hwindow hrest'
      rw [hsum'] at hlast
      exact hlast
    · dsimp only
      rw [R.drop hrest', ← hleft']
      congr 1
      omega

end

/-- The array is the next part of the stream exactly when the bytes left over are zeros. -/
theorem filled_eq_iff {result : Nat → Byte} {size : Nat} (h : Filled S done left result size)
    (hS : done + size ≤ S.length) : (List.range size).map result = (S.drop done).take size ↔
      ∀ b ∈ (S.drop done).take (min left size), b = 0 := by
  have hget : ∀ j, j < size → ((S.drop done).take size)[j]? = some (S.getD (done + j) 0) := by
    intro j hj
    rw [List.getElem?_take_of_lt hj, List.getElem?_drop, List.getD_eq_getElem?_getD,
      List.getElem?_eq_getElem (by omega), Option.getD_some]
  constructor
  · intro heq b hb
    obtain ⟨j, hj, rfl⟩ := List.getElem_of_mem hb
    rw [List.length_take, List.length_drop] at hj
    have hres : ((List.range size).map result)[j]? = some (result j) := by
      rw [List.getElem?_map, List.getElem?_range (by omega), Option.map_some]
    rw [heq, hget j (by omega), h j (by omega) (by omega), if_pos (by omega), Option.some.injEq,
      List.getD_eq_getElem?_getD, List.getElem?_eq_getElem (by omega), Option.getD_some] at hres
    rw [List.getElem_take, List.getElem_drop]
    exact hres
  · intro hzero
    apply List.ext_getElem?
    intro j
    by_cases hj : j < size
    · rw [hget j hj, List.getElem?_map, List.getElem?_range hj, Option.map_some, h j hj (by omega)]
      split_ifs with hleft
      · have hmem : S.getD (done + j) 0 ∈ (S.drop done).take (min left size) := by
          have hj' : j < min left size := by omega
          rw [List.getD_eq_getElem?_getD, List.mem_iff_getElem?]
          refine ⟨j, ?_⟩
          rw [List.getElem?_take_of_lt hj', List.getElem?_drop, List.getElem?_eq_getElem (by omega),
            Option.getD_some]
        rw [hzero _ hmem]
      · rfl
    · rw [List.getElem?_eq_none (by rw [List.length_map, List.length_range]; omega),
        List.getElem?_eq_none (by rw [List.length_take]; omega)]

/-! ## All calls -/

theorem length_get [NeZero window] (r : Reader σ) (size : Nat) :
    (get readBlock window r size).1.length = size := by
  unfold get
  dsimp only
  split_ifs <;> rw [List.length_map, List.length_range]

theorem length_gets [NeZero window] (r : Reader σ) (sizes : List Nat) :
    (gets readBlock window r sizes).flatten.length = sizes.sum := by
  induction sizes generalizing r with
  | nil => rfl
  | cons size sizes ih =>
    unfold gets
    rw [List.flatten_cons, List.length_append, length_get, ih, List.sum_cons]

theorem gets_iff [NeZero window] (R : ReadsBlocks readBlock window rest) (S : List Byte)
    (done : Nat) {r : Reader σ} (hstream : rest r.stream = S.drop (done + r.left))
    (sizes : List Nat) (hS : done + sizes.sum ≤ S.length) :
    (gets readBlock window r sizes).flatten = (S.drop done).take sizes.sum ↔
    Blank window S done r.left sizes := by
  induction sizes generalizing r done with
  | nil => exact iff_of_true rfl trivial
  | cons size sizes ih =>
    obtain ⟨⟨result, hresult, hfilled⟩, hleft, hrest⟩ := get_spec R hstream size
    rw [List.sum_cons] at hS ⊢
    unfold gets Blank
    rw [List.flatten_cons, List.take_add, List.drop_drop, ← hleft]
    have hlen : (get readBlock window r size).1.length = ((S.drop done).take size).length := by
      rw [length_get, List.length_take, List.length_drop]
      omega
    have hrest' := ih (done + size) (r := (get readBlock window r size).2) (by rw [hrest, hleft])
      (by omega)
    rw [← hrest', ← filled_eq_iff hfilled (by omega), ← hresult]
    exact ⟨fun heq => List.append_inj heq hlen, fun heq => congrArg₂ _ heq.1 heq.2⟩

end

/-- **The buffered reader**: the calls return the next part of the stream exactly when the stream
holds all the bytes they ask for and the bytes left over from a block that they should return are
zeros. -/
theorem gets_prefix_iff {σ : Type} (readBlock : (Nat → Byte) → σ → (Nat → Byte) × σ)
    (rest : σ → List Byte) (window : Nat) [NeZero window] (R : ReadsBlocks readBlock window rest)
    (stream : σ) (sizes : List Nat) :
    (gets readBlock window ⟨stream, 0⟩ sizes).flatten = (rest stream).take sizes.sum ↔
      sizes.sum ≤ (rest stream).length ∧ Blank window (rest stream) 0 0 sizes := by
  have hiff : sizes.sum ≤ (rest stream).length →
    ((gets readBlock window ⟨stream, 0⟩ sizes).flatten = (rest stream).take sizes.sum ↔
    Blank window (rest stream) 0 0 sizes) := fun hlen =>
    gets_iff R (rest stream) 0 (r := ⟨stream, 0⟩) rfl sizes (by omega)
  constructor
  · intro heq
    have hlen := congrArg List.length heq
    rw [length_gets, List.length_take] at hlen
    have hle : sizes.sum ≤ (rest stream).length := by omega
    exact ⟨hle, (hiff hle).1 heq⟩
  · intro h
    exact (hiff h.1).2 h.2

/-- Reads two bytes of a list at a time. -/
def readTwo (buffer : Nat → Byte) (stream : List Byte) : (Nat → Byte) × List Byte :=
  (fun i => if i < 2 then stream.getD i (buffer i) else buffer i, stream.drop 2)

theorem readTwo_reads : ReadsBlocks readTwo 2 id := by
  refine ⟨fun buffer stream i hi hlen => ?_, fun buffer stream => rfl⟩
  show (if i < 2 then stream.getD i (buffer i) else buffer i) = stream.getD i 0
  have hlen : i < stream.length := hlen
  rw [if_pos hi, List.getD_eq_getElem?_getD, List.getD_eq_getElem?_getD,
    List.getElem?_eq_getElem hlen, Option.getD_some, Option.getD_some]

/-- A window of two bytes; the calls take two whole blocks each. -/
theorem gets_prefix_sample :
    (gets readTwo 2 ⟨[1, 2, 3, 4, 5, 6, 7, 8, 9], 0⟩ [4, 4]).flatten =
      [1, 2, 3, 4, 5, 6, 7, 8] :=
  (gets_prefix_iff readTwo id 2 readTwo_reads [1, 2, 3, 4, 5, 6, 7, 8, 9] [4, 4]).2
    ⟨by decide, by simp, by simp [leftOver], trivial⟩

/-- One byte at a time: the second call returns a zero. -/
theorem second_call_blank : ¬(gets readTwo 2 ⟨[1, 2, 3], 0⟩ [1, 1]).flatten =
    [1, 2, 3].take [1, 1].sum := by
  intro h
  have hblank :=
    (gets_iff readTwo_reads [1, 2, 3] 0 (r := ⟨[1, 2, 3], 0⟩) rfl [1, 1] (by decide)).1 h
  exact absurd (hblank.2.1 2 (by decide)) (by decide)

end ReadBlock
