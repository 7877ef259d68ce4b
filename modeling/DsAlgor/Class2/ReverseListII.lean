import DsAlgor.Lib.Pointers

/-!
# `reverseListII.cpp`

`reverseBetween` reverses the nodes from place `m` to place `n`. It looks for the end of the list
while it walks, and not at every place: one or two places behind the last node it goes through
`NULL`, and when `n` is too large it has already reversed the nodes behind `m`. When `m` is too
small it counts to the end of the list, with an `int`. The places it is right for are in
`reverseBetween_iff`.
-/

namespace Class2

open Pointers
open Signed (intMax)

structure Heap where
  val : Ptr → Int
  next : Ptr → Ptr

/-- `new ListNode(x)` at a free address. -/
def Heap.new (h : Heap) (p : Ptr) (x : Int) : Heap :=
  { val := Function.update h.val p x, next := Function.update h.next p 0 }

/-- The first loop: the node in front of place `m`, or `none` where the function returns. -/
def forward (next : Ptr → Ptr) (m : Int) : Nat → Int → Ptr → Except Fault (Option Ptr)
  | 0, _, _ => .error .loop
  | fuel + 1, i, node => do
    if i = m then return some node
    else if node = 0 then return none
    else
      let node ← load next node
      forward next m fuel (← increment i) node

/-- The second loop: the pointers behind it, with `nNode` and `postnNode`. -/
def turn (n : Int) : Nat → Int → (Ptr → Ptr) → Ptr → Ptr →
    Except Fault ((Ptr → Ptr) × Option (Ptr × Ptr))
  | 0, _, _, _, _ => .error .loop
  | fuel + 1, i, next, nNode, postnNode => do
    if i = n then return (next, some (nNode, postnNode))
    else if postnNode = 0 then return (next, none)
    else
      let temp ← load next postnNode
      let next ← store next postnNode nNode
      turn n fuel (← increment i) next postnNode temp

/-- What is done behind the first loop. -/
def reverseFrom (fuel : Nat) (h : Heap) (dummy premNode : Ptr) (m n : Int) :
    Except Fault (Ptr × Heap) := do
  let mNode ← load h.next premNode
  let postnNode ← load h.next mNode
  match ← turn n fuel m h.next mNode postnNode with
  | (next, none) => return (0, { h with next := next })
  | (next, some (nNode, postnNode)) =>
    let next ← store next premNode nNode
    let next ← store next mNode postnNode
    return (← load next dummy, { h with next := next })

/-- `dummy` is the address that `new` returns. -/
def reverseBetween (fuel : Nat) (h : Heap) (dummy head : Ptr) (m n : Int) :
    Except Fault (Ptr × Heap) := do
  if head = 0 ∨ m > n then return (0, h)
  else
    let h := h.new dummy 0
    let h := { h with next := ← store h.next dummy head }
    match ← forward h.next m fuel 1 dummy with
    | none => return (0, h)
    | some premNode => reverseFrom fuel h dummy premNode m n

/-! ## The loops -/

section
variable {next : Ptr → Ptr} {m n i : Int} {A B : List Ptr} {p q x : Ptr}

theorem forward_run (h : Chain next p A q) (h0 : 0 ∉ A) (hm : m < i ∨ i + A.length ≤ m)
    (hmax : i + A.length ≤ intMax) (fuel : Nat) :
    forward next m (fuel + A.length) i p = forward next m fuel (i + A.length) q := by
  induction A generalizing p i with
  | nil =>
    obtain rfl : p = q := h
    simp
  | cons y A ih =>
    obtain ⟨rfl, h⟩ := h
    have hp : p ≠ 0 := fun hp => h0 (hp ▸ List.mem_cons_self)
    rw [List.length_cons] at hm hmax ⊢
    have hne : i ≠ m := by omega
    rw [← Nat.add_assoc, forward, if_neg hne, if_neg hp, load_ok hp,
      increment_ok (by omega)]
    show forward next m (fuel + A.length) (i + 1) (next p) = _
    rw [ih h (fun hmem => h0 (List.mem_cons_of_mem _ hmem)) (by omega) (by omega)]
    congr 1
    omega

/-- The nodes that have been passed point the other way. -/
theorem turn_run (h : Chain next x B q) (h0 : 0 ∉ B) (hnd : B.Nodup)
    (hn : i + B.length ≤ n) (hmax : n ≤ intMax) : ∃ (next' : Ptr → Ptr) (r : Ptr),
    (∀ fuel, turn n (fuel + B.length) i next p x = turn n fuel (i + B.length) next' r q) ∧
      Chain next' r B.reverse p ∧ ∀ y, y ∉ B → next' y = next y := by
  induction B generalizing next i p x with
  | nil =>
    obtain rfl : x = q := h
    exact ⟨next, p, by simp, rfl, fun _ _ => rfl⟩
  | cons y B ih =>
    obtain ⟨rfl, h⟩ := h
    obtain ⟨hout, hnd⟩ := List.nodup_cons.1 hnd
    have hx : x ≠ 0 := fun hx => h0 (hx ▸ List.mem_cons_self)
    rw [List.length_cons] at hn
    have hne : i ≠ n := by omega
    have hnext : increment i = .ok (i + 1) := increment_ok (by omega)
    have hrest : Chain (Function.update next x p) (next x) B q :=
      h.congr fun z hz => Function.update_of_ne (ne_of_mem_of_not_mem hz hout) _ _
    obtain ⟨next', r, hrun, hchain, hframe⟩ := ih (i := i + 1) (p := x) hrest
      (fun hmem => h0 (List.mem_cons_of_mem _ hmem)) hnd (by omega)
    refine ⟨next', r, fun fuel => ?_, ?_, fun z hz => ?_⟩
    · rw [List.length_cons, ← Nat.add_assoc, turn, if_neg hne, if_neg hx, load_ok hx, store_ok hx,
        hnext]
      show turn n (fuel + B.length) (i + 1) (Function.update next x p) x (next x) = _
      rw [hrun]
      congr 1
      omega
    · rw [List.reverse_cons]
      refine Chain.append.2 ⟨x, hchain, rfl, ?_⟩
      rw [hframe x hout, Function.update_self]
      rfl
    · rw [hframe z fun hmem => hz (List.mem_cons_of_mem _ hmem),
        Function.update_of_ne (List.ne_of_not_mem_cons hz)]

theorem forward_halts (h : Chain next p A q) (h0 : 0 ∉ A) (hm : m = i + A.length)
    (hmax : m ≤ intMax) : Halts (fun fuel => forward next m fuel i p) (.ok (some q)) := by
  apply Halts.after A.length (forward_run h h0 (.inr hm.ge) (hm ▸ hmax))
  apply Halts.succ
  simp only [forward, if_pos hm.symm]
  exact Halts.const _

/-- The walk sees `NULL` when it would have to go on from there. -/
theorem forward_none (h : Chain next p A 0) (h0 : 0 ∉ A) (hm : m < i ∨ i + A.length < m)
    (hmax : i + A.length ≤ intMax) : Halts (fun fuel => forward next m fuel i p) (.ok none) := by
  have hne : i + A.length ≠ m := by omega
  apply Halts.after A.length (forward_run h h0 (by omega) hmax)
  apply Halts.succ
  simp only [forward, if_neg hne, if_true]
  exact Halts.const _

/-- The list is too long for the counter. -/
theorem forward_overflow (h : Chain next p A q) (h0 : 0 ∉ A) (hm : m < i) (hi : i ≤ intMax)
    (hmax : intMax < i + A.length) :
    Halts (fun fuel => forward next m fuel i p) (.error .overflow) := by
  induction A generalizing p i with
  | nil =>
    rw [List.length_nil] at hmax
    omega
  | cons y A ih =>
    obtain ⟨rfl, h⟩ := h
    have hp : p ≠ 0 := fun hp => h0 (hp ▸ List.mem_cons_self)
    rw [List.length_cons] at hmax
    push_cast at hmax
    refine .succ ?_
    simp only [forward, if_neg hm.ne', if_neg hp, load_ok hp]
    by_cases hlast : intMax ≤ i
    · simp only [increment_overflow hlast]
      exact .const _
    · simp only [increment_ok (not_le.1 hlast)]
      exact ih h (fun hmem => h0 (List.mem_cons_of_mem _ hmem)) (by omega) (by omega) (by omega)

theorem turn_halts (h : Chain next x B q) (h0 : 0 ∉ B) (hnd : B.Nodup) (hn : n = i + B.length)
    (hmax : n ≤ intMax) (p : Ptr) : ∃ (next' : Ptr → Ptr) (r : Ptr),
    Halts (fun fuel => turn n fuel i next p x) (.ok (next', some (r, q))) ∧
      Chain next' r B.reverse p ∧ ∀ y, y ∉ B → next' y = next y := by
  obtain ⟨next', r, hrun, hchain, hframe⟩ := turn_run (p := p) h h0 hnd hn.ge hmax
  refine ⟨next', r, Halts.after B.length hrun (Halts.succ ?_), hchain, hframe⟩
  simp only [turn, if_pos hn.symm]
  exact Halts.const _

theorem turn_none (h : Chain next x B 0) (h0 : 0 ∉ B) (hnd : B.Nodup) (hn : i + B.length < n)
    (hmax : n ≤ intMax) (p : Ptr) : ∃ (next' : Ptr → Ptr) (r : Ptr),
    Halts (fun fuel => turn n fuel i next p x) (.ok (next', none)) ∧
      Chain next' r B.reverse p ∧ ∀ y, y ∉ B → next' y = next y := by
  obtain ⟨next', r, hrun, hchain, hframe⟩ := turn_run (p := p) h h0 hnd hn.le hmax
  refine ⟨next', r, Halts.after B.length hrun (Halts.succ ?_), hchain, hframe⟩
  simp only [turn, if_neg hn.ne, if_true]
  exact Halts.const _

end

/-! ## Behind the first loop -/

section
variable {h : Heap} {dummy head z x q r : Ptr} {next' : Ptr → Ptr} {m n : Int}
  {A B C P ps : List Ptr}

theorem reverseFrom_some (hz : z ≠ 0) (hx : h.next z = x) (hx0 : x ≠ 0) (hd : dummy ≠ 0)
    (hturn : Halts (fun fuel => turn n fuel m h.next x (h.next x)) (.ok (next', some (r, q)))) :
    Halts (fun fuel => reverseFrom fuel h dummy z m n)
      (.ok (Function.update (Function.update next' z r) x q dummy,
        { h with next := Function.update (Function.update next' z r) x q })) := by
  obtain ⟨k, hk⟩ := hturn
  refine ⟨k, fun fuel hfuel => ?_⟩
  simp only [reverseFrom, load_ok hz, hx, bind, Except.bind, load_ok hx0, hk fuel hfuel,
    store_ok hz, store_ok hx0, load_ok hd, pure, Except.pure]

theorem reverseFrom_none (hz : z ≠ 0) (hx : h.next z = x) (hx0 : x ≠ 0)
    (hturn : Halts (fun fuel => turn n fuel m h.next x (h.next x)) (.ok (next', none))) :
    Halts (fun fuel => reverseFrom fuel h dummy z m n) (.ok (0, { h with next := next' })) := by
  obtain ⟨k, hk⟩ := hturn
  refine ⟨k, fun fuel hfuel => ?_⟩
  simp only [reverseFrom, load_ok hz, hx, bind, Except.bind, load_ok hx0, hk fuel hfuel, pure,
    Except.pure]

/-- The place `m` is one or two places behind the last node. -/
theorem reverseFrom_null (hz : z = 0 ∨ h.next z = 0) :
    Halts (fun fuel => reverseFrom fuel h dummy z m n) (.error .null) := by
  refine ⟨0, fun fuel _ => ?_⟩
  by_cases hz0 : z = 0
  · simp only [reverseFrom, hz0, load_null, bind, Except.bind]
  · simp only [reverseFrom, load_ok hz0, hz.resolve_left hz0, load_null, bind, Except.bind]

/-- The list with the node in front of it. -/
def Heap.start (h : Heap) (dummy head : Ptr) : Heap :=
  { val := Function.update h.val dummy 0, next := Function.update h.next dummy head }

theorem reverseBetween_some {s : Except Fault (Ptr × Heap)} (hhead : head ≠ 0) (hd : dummy ≠ 0)
    (hmn : m ≤ n)
    (hforward : Halts (fun fuel => forward (h.start dummy head).next m fuel 1 dummy) (.ok (some z)))
    (hfrom : Halts (fun fuel => reverseFrom fuel (h.start dummy head) dummy z m n) s) :
    Halts (fun fuel => reverseBetween fuel h dummy head m n) s := by
  obtain ⟨k, hk⟩ := hforward
  obtain ⟨l, hl⟩ := hfrom
  refine ⟨max k l, fun fuel hfuel => ?_⟩
  have hgo : ¬ (head = 0 ∨ m > n) := by simp [hhead, hmn]
  have hf := hk fuel (le_trans (Nat.le_max_left k l) hfuel)
  have hr := hl fuel (le_trans (Nat.le_max_right k l) hfuel)
  simp only [Heap.start] at hf hr
  simp only [reverseBetween, if_neg hgo, Heap.new, store_ok hd, bind, Except.bind,
    Function.update_idem, hf, hr]

theorem reverseBetween_overflow (hhead : head ≠ 0) (hd : dummy ≠ 0) (hmn : m ≤ n)
    (hforward : Halts (fun fuel => forward (h.start dummy head).next m fuel 1 dummy)
      (.error .overflow)) :
    Halts (fun fuel => reverseBetween fuel h dummy head m n) (.error .overflow) := by
  obtain ⟨k, hk⟩ := hforward
  refine ⟨k, fun fuel hfuel => ?_⟩
  have hgo : ¬ (head = 0 ∨ m > n) := by simp [hhead, hmn]
  have hf := hk fuel hfuel
  simp only [Heap.start] at hf
  simp only [reverseBetween, if_neg hgo, Heap.new, store_ok hd, bind, Except.bind,
    Function.update_idem, hf]

theorem reverseBetween_none (hhead : head ≠ 0) (hd : dummy ≠ 0) (hmn : m ≤ n)
    (hforward : Halts (fun fuel => forward (h.start dummy head).next m fuel 1 dummy) (.ok none)) :
    Halts (fun fuel => reverseBetween fuel h dummy head m n) (.ok (0, h.start dummy head)) := by
  obtain ⟨k, hk⟩ := hforward
  refine ⟨k, fun fuel hfuel => ?_⟩
  have hgo : ¬ (head = 0 ∨ m > n) := by simp [hhead, hmn]
  have hf := hk fuel hfuel
  simp only [Heap.start] at hf
  simp only [reverseBetween, if_neg hgo, Heap.new, store_ok hd, bind, Except.bind,
    Function.update_idem, hf]
  rfl

/-- The nodes of the list are as they were. -/
theorem Heap.start_old (hout : dummy ∉ ps) : ∀ p ∈ ps,
    (h.start dummy head).val p = h.val p ∧ (h.start dummy head).next p = h.next p := by
  intro p hp
  have hne : p ≠ dummy := ne_of_mem_of_not_mem hp hout
  exact ⟨Function.update_of_ne hne _ _, Function.update_of_ne hne _ _⟩

theorem Heap.start_list (hlist : IsList h.next head ps) (hd : dummy ≠ 0) (hout : dummy ∉ ps) :
    IsList (h.start dummy head).next dummy (dummy :: ps) := by
  refine ⟨⟨rfl, ?_⟩, fun hmem => ?_⟩
  · simp only [Heap.start, Function.update_self]
    exact hlist.1.congr fun q hq => (Heap.start_old hout q hq).2
  · cases List.mem_cons.1 hmem with
    | inl heq => exact hd heq.symm
    | inr hmem => exact hlist.2 hmem

end

/-! ## Places -/

/-- The nodes with those from place `m` to place `n` in the other order. -/
def reversed (m n : Nat) (ps : List Ptr) : List Ptr :=
  ps.take (m - 1) ++ ((ps.take n).drop (m - 1)).reverse ++ ps.drop n

/-- The nodes are reversed where the places are in the list, elsewhere
`NULL` is returned and the list is what it was. -/
def Right (h : Heap) (dummy head : Ptr) (ps : List Ptr) (m n : Int) : Prop :=
  ∃ (r : Ptr) (h' : Heap),
    Halts (fun fuel => reverseBetween fuel h dummy head m n) (.ok (r, h')) ∧
      (∀ p ∈ ps, h'.val p = h.val p) ∧
      if 1 ≤ m ∧ m ≤ n ∧ n ≤ ps.length then IsList h'.next r (reversed m.toNat n.toNat ps)
      else r = 0 ∧ IsList h'.next head ps

theorem reversed_eq (A B C : List Ptr) (x : Ptr) :
    reversed (A.length + 1) (A.length + 1 + B.length) (A ++ x :: (B ++ C)) =
      A ++ (B.reverse ++ x :: C) := by
  have htake : (A ++ x :: (B ++ C)).take (A.length + 1 + B.length) = A ++ x :: B := by
    rw [Nat.add_assoc, List.take_length_add_append, Nat.add_comm 1, List.take_succ_cons,
      List.take_left]
  have hdrop : (A ++ x :: (B ++ C)).drop (A.length + 1 + B.length) = C := by
    rw [Nat.add_assoc, List.drop_length_add_append, Nat.add_comm 1, List.drop_succ_cons,
      List.drop_left]
  rw [reversed, htake, hdrop, Nat.add_sub_cancel, List.take_left, List.drop_left]
  simp

theorem exists_places {ps : List Ptr} {m n : Int} (hm : 1 ≤ m) (hmn : m ≤ n)
    (hn : n ≤ ps.length) : ∃ (A B C : List Ptr) (x : Ptr), ps = A ++ x :: (B ++ C) ∧
      m = A.length + 1 ∧ n = A.length + 1 + B.length := by
  obtain ⟨a, rfl⟩ : ∃ a : Nat, m = a + 1 := ⟨(m - 1).toNat, by omega⟩
  obtain ⟨b, rfl⟩ : ∃ b : Nat, n = a + 1 + b := ⟨(n - a - 1).toNat, by omega⟩
  have hlt : a < ps.length := by omega
  refine ⟨ps.take a, (ps.drop (a + 1)).take b, (ps.drop (a + 1)).drop b, ps[a], ?_, ?_, ?_⟩
  · rw [List.take_append_drop, ← List.drop_eq_getElem_cons hlt, List.take_append_drop]
  · rw [List.length_take_of_le hlt.le]
  · rw [List.length_take_of_le hlt.le, List.length_take_of_le]
    rw [List.length_drop]
    omega

section
variable {h : Heap} {dummy head z x : Ptr} {m n : Int} {A B C P ps : List Ptr}

/-- The nodes `B` between `x` and `C` come in front of `x`. -/
theorem reverseFrom_inside (hlist : IsList h.next dummy (P ++ z :: x :: (B ++ C))) (hd : dummy ≠ 0)
    (hn : n = m + B.length) (hmax : n ≤ intMax) : ∃ (r : Ptr) (h' : Heap),
    Halts (fun fuel => reverseFrom fuel h dummy z m n) (.ok (r, h')) ∧ h'.val = h.val ∧
      r = h'.next dummy ∧ IsList h'.next dummy (P ++ z :: (B.reverse ++ x :: C)) := by
  have hnd := hlist.nodup
  obtain ⟨hchain, h0⟩ := hlist
  obtain ⟨z, hP, rfl, hx, hrest⟩ := Chain.append.1 hchain
  obtain ⟨q, hB, hC⟩ := Chain.append.1 hrest
  have hz0 : z ≠ 0 := fun heq => h0 (by simp [heq])
  have hx0 : x ≠ 0 := fun heq => h0 (by simp [heq])
  have hB0 : 0 ∉ B := fun hmem => h0 (by simp [hmem])
  have hndB : B.Nodup := by grind
  have hzx : z ≠ x := by grind
  -- the three parts of the list are apart
  have hPout : ∀ y ∈ P, y ≠ z ∧ y ≠ x ∧ y ∉ B := by grind
  have hBout : ∀ y ∈ B, y ≠ z ∧ y ≠ x := by grind
  have hCout : ∀ y ∈ C, y ≠ z ∧ y ≠ x ∧ y ∉ B := by grind
  obtain ⟨next', r, hturn, hback, hframe⟩ := turn_halts hB hB0 hndB hn hmax x
  have hrun := reverseFrom_some hz0 hx hx0 hd hturn
  generalize hnew : Function.update (Function.update next' z r) x q = new at hrun
  have hnewx : new x = q := by rw [← hnew, Function.update_self]
  have hnewz : new z = r := by rw [← hnew, Function.update_of_ne hzx, Function.update_self]
  have hkeep : ∀ y, y ≠ z ∧ y ≠ x → new y = next' y := by
    intro y ⟨hyz, hyx⟩
    rw [← hnew, Function.update_of_ne hyx, Function.update_of_ne hyz]
  have hkeep' : ∀ y, y ≠ z ∧ y ≠ x ∧ y ∉ B → new y = h.next y := by
    intro y ⟨hyz, hyx, hyB⟩
    rw [hkeep y ⟨hyz, hyx⟩, hframe y hyB]
  refine ⟨_, _, hrun, rfl, rfl, ?_, ?_⟩
  · refine Chain.append.2 ⟨z, hP.congr fun y hy => hkeep' y (hPout y hy), rfl, ?_⟩
    show Chain new (new z) (B.reverse ++ x :: C) 0
    rw [hnewz]
    refine Chain.append.2 ⟨x, hback.congr fun y hy => hkeep y (hBout y (List.mem_reverse.1 hy)),
      rfl, ?_⟩
    rw [hnewx]
    exact hC.congr fun y hy => hkeep' y (hCout y hy)
  · grind

/-- The places end behind the list: the nodes behind `x` point the other way. -/
theorem reverseFrom_overrun (hlist : IsList h.next dummy (P ++ z :: x :: B))
    (hn : m + B.length < n) (hmax : n ≤ intMax) : ∃ (h' : Heap) (r : Ptr),
    Halts (fun fuel => reverseFrom fuel h dummy z m n) (.ok (0, h')) ∧ h'.val = h.val ∧
      Chain h'.next r B.reverse x ∧ ∀ y, y ∉ B → h'.next y = h.next y := by
  have hnd := hlist.nodup
  obtain ⟨hchain, h0⟩ := hlist
  obtain ⟨z, hP, rfl, hx, hB⟩ := Chain.append.1 hchain
  have hz0 : z ≠ 0 := fun heq => h0 (by simp [heq])
  have hx0 : x ≠ 0 := fun heq => h0 (by simp [heq])
  have hB0 : 0 ∉ B := fun hmem => h0 (by simp [hmem])
  have hndB : B.Nodup := by grind
  obtain ⟨next', r, hturn, hback, hframe⟩ := turn_none hB hB0 hndB hn hmax x
  exact ⟨_, r, reverseFrom_none hz0 hx hx0 hturn, rfl, hback, hframe⟩

/-- A pointer that leads back does not lead to the end of the list. -/
theorem not_isList_back {next : Ptr → Ptr} {y : Ptr} (hx : x ≠ 0) (hout : x ∉ B)
    (hback : next y = x) : ¬ IsList next head (A ++ x :: y :: B) := by
  intro hlist
  obtain ⟨_, _, rfl, rfl, hrest⟩ := Chain.append.1 hlist.1
  rw [hback] at hrest
  cases B with
  | nil => exact hx hrest
  | cons b B => exact hout (hrest.1 ▸ List.mem_cons_self)

end

/-! ## The cases -/

section
variable {h : Heap} {dummy head : Ptr} {m n : Int} {ps : List Ptr}

/-- Where `NULL` is to be returned, `Right` is about the list alone. -/
theorem Right.of_null {h' : Heap} (hout : ¬ (1 ≤ m ∧ m ≤ n ∧ n ≤ ps.length))
    (hrun : Halts (fun fuel => reverseBetween fuel h dummy head m n) (.ok (0, h')))
    (hval : ∀ p ∈ ps, h'.val p = h.val p) (hlist : IsList h'.next head ps) :
    Right h dummy head ps m n :=
  ⟨0, h', hrun, hval, by rw [if_neg hout]; exact ⟨rfl, hlist⟩⟩

theorem right_return (hlist : IsList h.next head ps) (hgo : head = 0 ∨ m > n) :
    Right h dummy head ps m n := by
  have hout : ¬ (1 ≤ m ∧ m ≤ n ∧ n ≤ ps.length) := by
    cases hgo with
    | inl hhead =>
      rw [hlist.eq_zero_iff.1 hhead, List.length_nil]
      omega
    | inr hmn => omega
  refine Right.of_null hout ⟨0, fun fuel _ => ?_⟩ (fun _ _ => rfl) hlist
  simp only [reverseBetween, if_pos hgo]
  rfl

/-- The last node, which is `dummy` when there is no other. -/
theorem exists_last (dummy : Ptr) (ps : List Ptr) :
    ∃ (P : List Ptr) (z : Ptr), dummy :: ps = P ++ [z] ∧ ps.length = P.length := by
  cases List.eq_nil_or_concat' (dummy :: ps) with
  | inl hnil => exact absurd hnil (List.cons_ne_nil _ _)
  | inr hlast =>
    obtain ⟨P, z, hP⟩ := hlast
    have hlen := congrArg List.length hP
    rw [List.length_cons, List.length_append, List.length_singleton] at hlen
    exact ⟨P, z, hP, Nat.succ.inj hlen⟩

variable (hlist : IsList h.next head ps) (hd : dummy ≠ 0) (hout : dummy ∉ ps)
include hlist hd hout

/-- The walk to place `m` when it is in the list. -/
theorem exists_forward {A B : List Ptr} {x : Ptr} (hps : ps = A ++ x :: B)
    (hm : m = A.length + 1) (hmax : m ≤ intMax) :
    ∃ (P : List Ptr) (z : Ptr), dummy :: A = P ++ [z] ∧
      IsList (h.start dummy head).next dummy (P ++ z :: x :: B) ∧
      Halts (fun fuel => forward (h.start dummy head).next m fuel 1 dummy) (.ok (some z)) := by
  have hstart := Heap.start_list hlist hd hout
  obtain ⟨P, z, hP, hlen⟩ := exists_last dummy A
  have hsplit : dummy :: ps = P ++ z :: x :: B := by
    rw [hps, ← List.cons_append, hP]
    simp
  rw [hsplit] at hstart
  refine ⟨P, z, hP, hstart, ?_⟩
  obtain ⟨q, hwalk, rfl, _⟩ := Chain.append.1 hstart.1
  refine forward_halts hwalk (fun hmem => hstart.2 (by simp [hmem])) ?_ hmax
  omega

variable (hhead : head ≠ 0)
include hhead

theorem right_none (hmn : m ≤ n) (hm : m < 1 ∨ ps.length + 3 ≤ m)
    (hmax : ps.length + 2 ≤ intMax) : Right h dummy head ps m n := by
  have hstart := Heap.start_list hlist hd hout
  have hnone := forward_none (m := m) (i := 1) hstart.1 hstart.2
    (by rw [List.length_cons]; omega) (by rw [List.length_cons]; push_cast; omega)
  have hold := @Heap.start_old h dummy head ps hout
  exact Right.of_null (by omega) (reverseBetween_none hhead hd hmn hnone)
    (fun p hp => (hold p hp).1) (hlist.congr fun p hp => (hold p hp).2)

/-- The count to the end of the list overflows. -/
theorem not_right_long (hmn : m ≤ n) (hm : m < 1) (hmax : ¬ ps.length + 2 ≤ intMax) :
    ¬ Right h dummy head ps m n := by
  have hstart := Heap.start_list hlist hd hout
  have hforward := forward_overflow hstart.1 hstart.2 hm (by decide)
    (by rw [List.length_cons]; push_cast; omega)
  intro ⟨r', h'', hrun', _⟩
  cases hrun'.unique (reverseBetween_overflow hhead hd hmn hforward)

variable (hmax : n ≤ intMax)
include hmax

theorem right_inside (hm : 1 ≤ m) (hmn : m ≤ n) (hn : n ≤ ps.length) :
    Right h dummy head ps m n := by
  obtain ⟨A, B, C, x, hps, hA, hB⟩ := exists_places hm hmn hn
  obtain ⟨P, z, hP, hstart, hforward⟩ := exists_forward hlist hd hout hps hA (hmn.trans hmax)
  obtain ⟨r, h', hrun, hval, hr, hresult⟩ := reverseFrom_inside hstart hd (n := n) (m := m)
    (by omega) hmax
  refine ⟨r, h', reverseBetween_some hhead hd hmn hforward hrun, fun p hp => ?_, ?_⟩
  · rw [hval]
    exact (Heap.start_old hout p hp).1
  · have hm' : m.toNat = A.length + 1 := by omega
    have hn' : n.toNat = A.length + 1 + B.length := by omega
    rw [if_pos ⟨hm, hmn, hn⟩, hm', hn', hps, reversed_eq]
    -- the node in front of the list is left out
    have hfront : P ++ z :: (B.reverse ++ x :: C) = dummy :: (A ++ (B.reverse ++ x :: C)) := by
      rw [List.append_cons, ← hP, List.cons_append]
    rw [hfront] at hresult
    refine ⟨?_, fun hmem => hresult.2 (List.mem_cons_of_mem _ hmem)⟩
    rw [hr]
    exact hresult.1.2

/-- The last place is in the list: nothing has been turned when the end is seen. -/
theorem right_last (hm : m = ps.length) (hn : ps.length < n) : Right h dummy head ps m n := by
  obtain ⟨A, x, rfl⟩ : ∃ A x, ps = A ++ [x] := by
    cases ps using List.reverseRecOn with
    | nil => exact absurd hlist.1 hhead
    | append_singleton A x => exact ⟨A, x, rfl⟩
  obtain ⟨P, z, hP, hstart, hforward⟩ := exists_forward hlist hd hout rfl
    (m := m) (by simpa using hm) (by omega)
  obtain ⟨h', r, hrun, hval, _, hframe⟩ := reverseFrom_overrun hstart (m := m) (n := n)
    (by simpa [hm] using hn) hmax
  refine Right.of_null (by omega) (reverseBetween_some hhead hd (by omega) hforward hrun) ?_
    (hlist.congr fun q hq => ?_)
  · intro p hp
    rw [hval]
    exact (Heap.start_old hout p hp).1
  · rw [hframe q List.not_mem_nil]
    exact (Heap.start_old hout q hq).2

theorem not_right_overrun (hm : 1 ≤ m) (hlast : m < ps.length) (hn : ps.length < n) :
    ¬ Right h dummy head ps m n := by
  obtain ⟨A, B, C, x, hps, hA, hB⟩ := exists_places hm le_rfl hlast.le
  obtain rfl : B = [] := List.length_eq_zero_iff.1 (by omega)
  rw [List.nil_append] at hps
  have hlen := congrArg List.length hps
  simp only [List.length_append, List.length_cons] at hlen
  obtain ⟨P, z, hP, hstart, hforward⟩ := exists_forward hlist hd hout hps hA (by omega)
  obtain ⟨h', r, hrun, _, hback, _⟩ := reverseFrom_overrun hstart (m := m) (n := n) (by omega) hmax
  intro ⟨r', h'', hrun', _, hresult⟩
  have heq := hrun'.unique (reverseBetween_some hhead hd (by omega) hforward hrun)
  obtain ⟨rfl, rfl⟩ := Prod.mk.inj (Except.ok.inj heq)
  rw [if_neg (by omega)] at hresult
  -- the node behind `x` points to `x` now
  cases C with
  | nil =>
    rw [List.length_nil] at hlen
    omega
  | cons y C =>
    rw [List.reverse_cons] at hback
    obtain ⟨q, _, rfl, hy⟩ := Chain.append.1 hback
    have hnd := hlist.nodup
    have hx : x ≠ 0 := fun hx => hlist.2 (by simp [hps, hx])
    have hxC : x ∉ C := by grind
    rw [hps] at hresult
    exact not_isList_back hx hxC hy hresult.2

theorem not_right_null (hm : m = ps.length + 1 ∨ m = ps.length + 2) (hmn : m ≤ n) :
    ¬ Right h dummy head ps m n := by
  have hstart := Heap.start_list hlist hd hout
  have hnull : ∃ z, (z = 0 ∨ (h.start dummy head).next z = 0) ∧
      Halts (fun fuel => forward (h.start dummy head).next m fuel 1 dummy) (.ok (some z)) := by
    cases hm with
    | inl hm =>
      obtain ⟨P, z, hP, hlen⟩ := exists_last dummy ps
      rw [hP] at hstart
      obtain ⟨q, hwalk, rfl, hend⟩ := Chain.append.1 hstart.1
      exact ⟨q, .inr hend, forward_halts hwalk (fun hmem => hstart.2 (by simp [hmem])) (by omega)
        (hmn.trans hmax)⟩
    | inr hm =>
      refine ⟨0, .inl rfl, forward_halts hstart.1 hstart.2 ?_ (hmn.trans hmax)⟩
      rw [List.length_cons]
      omega
  obtain ⟨z, hz, hforward⟩ := hnull
  intro ⟨r', h'', hrun', _⟩
  have heq := hrun'.unique (reverseBetween_some hhead hd hmn hforward (reverseFrom_null hz))
  cases heq

end

/-- **The places that `reverseBetween` is right for.** -/
theorem reverseBetween_iff {h : Heap} {dummy head : Ptr} {ps : List Ptr} {m n : Int}
    (hlist : IsList h.next head ps) (hd : dummy ≠ 0) (hout : dummy ∉ ps) (hmax : n ≤ intMax) :
    Right h dummy head ps m n ↔
      ps = [] ∨ n < m ∨ m < 1 ∧ ps.length + 2 ≤ intMax ∨
        1 ≤ m ∧ (n ≤ ps.length ∨ m = ps.length ∨ ps.length + 3 ≤ m) := by
  by_cases hhead : head = 0
  · exact iff_of_true (right_return hlist (.inl hhead)) (.inl (hlist.eq_zero_iff.1 hhead))
  · have hcons : ps ≠ [] := fun hnil => hhead (hlist.eq_zero_iff.2 hnil)
    rw [or_iff_right hcons]
    by_cases hmn : n < m
    · exact iff_of_true (right_return hlist (.inr hmn)) (.inl hmn)
    · rw [or_iff_right hmn]
      have hmn := not_lt.1 hmn
      by_cases hm : m < 1
      · rw [and_iff_right hm, or_iff_left fun h => by omega]
        refine ⟨fun hright => ?_, fun hlen => ?_⟩
        · by_contra hlong
          exact not_right_long hlist hd hout hhead hmn hm hlong hright
        · exact right_none hlist hd hout hhead hmn (.inl hm) hlen
      · rw [or_iff_right fun h => hm h.1, and_iff_right (not_lt.1 hm)]
        by_cases hn : n ≤ ps.length
        · exact iff_of_true (right_inside hlist hd hout hhead hmax (not_lt.1 hm) hmn hn) (.inl hn)
        · rw [or_iff_right hn]
          by_cases hlast : m = ps.length
          · exact iff_of_true (right_last hlist hd hout hhead hmax hlast (by omega)) (.inl hlast)
          · rw [or_iff_right hlast]
            by_cases hfar : ps.length + 3 ≤ m
            · exact iff_of_true (right_none hlist hd hout hhead hmn (.inr hfar) (by omega)) hfar
            · refine iff_of_false ?_ hfar
              by_cases hless : m < ps.length
              · exact not_right_overrun hlist hd hout hhead hmax (by omega) hless (by omega)
              · exact not_right_null hlist hd hout hhead hmax (by omega) hmn

theorem reverseBetween_pair :
    Right { val := fun _ => 0, next := fun p => if p = 1 then 2 else 0 } 3 1 [1, 2] 1 2 :=
  (reverseBetween_iff (by simp [IsList, Chain]) (by decide) (by decide) (by decide)).2
    (.inr (.inr (.inr ⟨by decide, .inl (by decide)⟩)))

/-- Place 2 of a list with one node. -/
theorem reverseBetween_past : ¬ Right { val := fun _ => 0, next := fun _ => 0 } 2 1 [1] 2 2 :=
  not_right_null (by simp [IsList, Chain]) (by decide) (by decide) (by decide) (by decide)
    (.inl rfl)
    le_rfl

end Class2
