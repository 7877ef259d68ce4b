import DsAlgor.Lib.Pointers

/-!
# `cloneListWithRandomPointer2.cpp`

The copies are woven into the list, get their random pointers, and are taken out of it again. In
between the list is `woven l`, where `l` has every node with its copy. The third loop leaves two
lists, of the nodes and of the copies (`decoupleLoop_halts`), so `copyRandomList` leaves the list as
it was and returns one like it (`copyRandomList_spec`).
-/

namespace Class2

open Pointers

/-- `brk` is the next free address; no node has it or one behind it. -/
structure RandomHeap where
  label : Ptr → Int
  next : Ptr → Ptr
  random : Ptr → Ptr
  brk : Ptr

/-- `new RandomListNode(x)` -/
def RandomHeap.new (h : RandomHeap) (x : Int) : Ptr × RandomHeap :=
  (h.brk, {
    label := Function.update h.label h.brk x
    next := Function.update h.next h.brk 0
    random := Function.update h.random h.brk 0
    brk := h.brk + 1 })

/-- The first loop. -/
def insertLoop : Nat → RandomHeap → Ptr → Except Fault RandomHeap
  | 0, _, _ => .error .loop
  | fuel + 1, h, cur => do
    if cur = 0 then return h
    else
      let (temp, h) := h.new (← load h.label cur)
      let h := { h with next := ← store h.next temp (← load h.next cur) }
      let h := { h with next := ← store h.next cur temp }
      insertLoop fuel h (← load h.next temp)

/-- The second loop. -/
def randomLoop : Nat → RandomHeap → Ptr → Except Fault RandomHeap
  | 0, _, _ => .error .loop
  | fuel + 1, h, cur => do
    if cur = 0 then return h
    else
      let temp ← load h.next cur
      let mut h := h
      if (← load h.random cur) ≠ 0 then
        h := { h with random := ← store h.random temp (← load h.next (← load h.random cur)) }
      randomLoop fuel h (← load h.next temp)

/-- The third loop. -/
def decoupleLoop : Nat → RandomHeap → Ptr → Except Fault RandomHeap
  | 0, _, _ => .error .loop
  | fuel + 1, h, cur => do
    if cur = 0 then return h
    else
      let temp ← load h.next cur
      let mut h := h
      h := { h with next := ← store h.next cur (← load h.next temp) }
      if (← load h.next temp) ≠ 0 then
        h := { h with next := ← store h.next temp (← load h.next (← load h.next temp)) }
      decoupleLoop fuel h (← load h.next cur)

def copyRandomList (fuel : Nat) (h : RandomHeap) (head : Ptr) :
    Except Fault (Ptr × RandomHeap) := do
  let h ← insertLoop fuel h head
  let h ← randomLoop fuel h head
  let dup ← if head = 0 then pure 0 else load h.next head
  let h ← decoupleLoop fuel h head
  return (dup, h)

/-! ## The list with the copies in it -/

/-- Every node is followed by its copy. -/
def woven (l : List (Ptr × Ptr)) : List Ptr := l.flatMap fun x => [x.1, x.2]

@[simp] theorem woven_nil : woven [] = [] := rfl

@[simp] theorem woven_cons (p c : Ptr) (l : List (Ptr × Ptr)) :
    woven ((p, c) :: l) = p :: c :: woven l := rfl

theorem mem_woven {l : List (Ptr × Ptr)} {x : Ptr × Ptr} (hx : x ∈ l) :
    x.1 ∈ woven l ∧ x.2 ∈ woven l :=
  ⟨List.mem_flatMap.2 ⟨x, hx, by simp⟩, List.mem_flatMap.2 ⟨x, hx, by simp⟩⟩

theorem next_of_woven {next : Ptr → Ptr} {p : Ptr} {l : List (Ptr × Ptr)}
    (h : Chain next p (woven l) 0) : ∀ x ∈ l, next x.1 = x.2 := by
  induction l generalizing p with
  | nil => exact nofun
  | cons y l ih =>
    obtain ⟨rfl, hcopy, h⟩ := h
    intro x hx
    cases List.mem_cons.1 hx with
    | inl heq => rw [heq, hcopy]
    | inr hx => exact ih h x hx

/-- The node `p` and its copy `c` at the front. -/
structure Front (next : Ptr → Ptr) (p c : Ptr) (l : List (Ptr × Ptr)) : Prop where
  copy : next p = c
  chain : Chain next (next c) (woven l) 0
  node_ne : p ≠ 0
  copy_ne : c ≠ 0
  rest : 0 ∉ woven l
  distinct : c ≠ p
  node_out : p ∉ woven l
  copy_out : c ∉ woven l

theorem front_of_woven {next : Ptr → Ptr} {p q c : Ptr} {l : List (Ptr × Ptr)}
    (hchain : Chain next p (woven ((q, c) :: l)) 0) (h0 : 0 ∉ woven ((q, c) :: l)) :
    p = q ∧ Front next p c l := by
  rw [woven_cons] at hchain h0
  obtain ⟨hp, hc⟩ := List.nodup_cons.1 (hchain.nodup h0)
  obtain ⟨hcl, -⟩ := List.nodup_cons.1 hc
  obtain ⟨rfl, hnext, hchain⟩ := hchain
  refine ⟨rfl, hnext, hchain, fun heq => h0 ?_, fun heq => h0 ?_, fun hmem => h0 ?_,
    fun heq => hp ?_, fun hmem => hp ?_, hcl⟩
  · exact heq ▸ List.mem_cons_self
  · exact heq ▸ List.mem_cons_of_mem _ List.mem_cons_self
  · exact List.mem_cons_of_mem _ (List.mem_cons_of_mem _ hmem)
  · exact heq ▸ List.mem_cons_self
  · exact List.mem_cons_of_mem _ hmem

/-- The nodes with their copies, which get the addresses from `brk` on. -/
def paired : Ptr → List Ptr → List (Ptr × Ptr)
  | _, [] => []
  | brk, p :: ps => (p, brk) :: paired (brk + 1) ps

theorem paired_fst (brk : Ptr) (ps : List Ptr) : (paired brk ps).map Prod.fst = ps := by
  induction ps generalizing brk with
  | nil => rfl
  | cons p ps ih => rw [paired, List.map_cons, ih]

theorem paired_snd (brk : Ptr) (ps : List Ptr) :
    (paired brk ps).map Prod.snd = List.range' brk ps.length := by
  induction ps generalizing brk with
  | nil => rfl
  | cons p ps ih => rw [paired, List.map_cons, ih, List.length_cons, List.range'_succ]

/-! ## The first loop -/

section
variable {h : RandomHeap} {p : Ptr} {ps : List Ptr}

/-- The heap when the copy of `p` is in the list. -/
def RandomHeap.insert (h : RandomHeap) (p : Ptr) : RandomHeap :=
  { label := Function.update h.label h.brk (h.label p)
    next := Function.update (Function.update h.next h.brk (h.next p)) p h.brk
    random := Function.update h.random h.brk 0
    brk := h.brk + 1 }

theorem insertLoop_step (hp : p ≠ 0) (hlt : p < h.brk) (fuel : Nat) :
    insertLoop (fuel + 1) h p = insertLoop fuel (h.insert p) (h.next p) := by
  have hbrk : h.brk ≠ 0 := Nat.ne_zero_of_lt hlt
  have hne : p ≠ h.brk := hlt.ne
  simp only [insertLoop, if_neg hp, load_ok hp, store_ok hp, load_ok hbrk, store_ok hbrk,
    RandomHeap.new, bind, Except.bind, Function.update_of_ne hne, Function.update_idem,
    Function.update_of_ne hne.symm, Function.update_self]
  rfl

/-- What the first loop leaves: the old nodes have their labels and random pointers. -/
structure Inserted (h h' : RandomHeap) (p : Ptr) (ps : List Ptr) : Prop where
  chain : Chain h'.next p (woven (paired h.brk ps)) 0
  label : ∀ x ∈ paired h.brk ps, h'.label x.2 = h.label x.1
  random : ∀ x ∈ paired h.brk ps, h'.random x.2 = 0
  old : ∀ q < h.brk, h'.label q = h.label q ∧ h'.random q = h.random q
  next : ∀ q < h.brk, q ∉ ps → h'.next q = h.next q

theorem insertLoop_halts (hchain : Chain h.next p ps 0) (h0 : 0 ∉ ps) (hlt : ∀ q ∈ ps, q < h.brk) :
    ∃ h' : RandomHeap, Halts (fun fuel => insertLoop fuel h p) (.ok h') ∧ Inserted h h' p ps := by
  induction ps generalizing h p with
  | nil =>
    obtain rfl : p = 0 := hchain
    exact ⟨h, Halts.succ (Halts.const _), rfl, nofun, nofun, fun _ _ => ⟨rfl, rfl⟩,
      fun _ _ _ => rfl⟩
  | cons q ps ih =>
    obtain ⟨hout, -⟩ := List.nodup_cons.1 (hchain.nodup h0)
    obtain ⟨rfl, hchain⟩ := hchain
    have hp : p ≠ 0 := fun hp => h0 (hp ▸ List.mem_cons_self)
    have hpbrk : p < h.brk := hlt p List.mem_cons_self
    have hold : ∀ q ∈ ps, q < h.brk := fun q hq => hlt q (List.mem_cons_of_mem _ hq)
    have hchain1 : Chain (h.insert p).next (h.next p) ps 0 := by
      refine hchain.congr fun q hq => ?_
      simp [RandomHeap.insert, ne_of_mem_of_not_mem hq hout, (hold q hq).ne]
    obtain ⟨h', hrun, hins⟩ := ih hchain1 (fun hmem => h0 (List.mem_cons_of_mem _ hmem))
      fun q hq => Nat.lt_succ_of_lt (hold q hq)
    refine ⟨h', ?_, ?_, ?_, ?_, ?_, ?_⟩
    · apply Halts.succ
      simp only [insertLoop_step hp hpbrk]
      exact hrun
    · have hnextp : h'.next p = h.brk := by
        rw [hins.next p (Nat.lt_succ_of_lt hpbrk) hout]
        simp [RandomHeap.insert]
      have hnextc : h'.next h.brk = h.next p := by
        rw [hins.next h.brk (Nat.lt_succ_self _) fun hmem => lt_irrefl _ (hold _ hmem)]
        simp [RandomHeap.insert, hpbrk.ne']
      show Chain h'.next p (p :: h.brk :: woven (paired (h.brk + 1) ps)) 0
      refine ⟨rfl, hnextp, ?_⟩
      rw [hnextc]
      exact hins.chain
    · intro x hx
      cases List.mem_cons.1 hx with
      | inl heq =>
        rw [heq, (hins.old h.brk (Nat.lt_succ_self _)).1]
        simp [RandomHeap.insert]
      | inr hx =>
        have hmem : x.1 ∈ ps := paired_fst (h.brk + 1) ps ▸ List.mem_map_of_mem hx
        rw [hins.label x hx]
        simp [RandomHeap.insert, (hold _ hmem).ne]
    · intro x hx
      cases List.mem_cons.1 hx with
      | inl heq =>
        rw [heq, (hins.old h.brk (Nat.lt_succ_self _)).2]
        simp [RandomHeap.insert]
      | inr hx => exact hins.random x hx
    · intro q hq
      obtain ⟨hlabel, hrandom⟩ := hins.old q (Nat.lt_succ_of_lt hq)
      rw [hlabel, hrandom]
      simp [RandomHeap.insert, hq.ne]
    · intro q hq hmem
      rw [hins.next q (Nat.lt_succ_of_lt hq) fun h => hmem (List.mem_cons_of_mem _ h)]
      simp [RandomHeap.insert, hq.ne, List.ne_of_not_mem_cons hmem]

end

/-! ## The second loop -/

section
variable {h : RandomHeap} {p : Ptr} {l : List (Ptr × Ptr)}

theorem randomLoop_step (hp : p ≠ 0) (hc : h.next p ≠ 0) (fuel : Nat) :
    randomLoop (fuel + 1) h p = randomLoop fuel
      { h with random := if h.random p = 0 then h.random else
          Function.update h.random (h.next p) (h.next (h.random p)) } (h.next (h.next p)) := by
  by_cases hr : h.random p = 0
  · simp [randomLoop, hp, load_ok hp, hr, load_ok hc, bind, Except.bind]
  · simp [randomLoop, hp, load_ok hp, hr, load_ok hr, load_ok hc, store_ok hc, bind, Except.bind]

/-- A copy gets the copy of what its node points to. -/
theorem randomLoop_halts (hchain : Chain h.next p (woven l) 0) (h0 : 0 ∉ woven l) :
    ∃ random' : Ptr → Ptr,
    Halts (fun fuel => randomLoop fuel h p) (.ok { h with random := random' }) ∧
      (∀ x ∈ l, random' x.2 =
        if h.random x.1 = 0 then h.random x.2 else h.next (h.random x.1)) ∧
      ∀ q, q ∉ l.map Prod.snd → random' q = h.random q := by
  induction l generalizing h p with
  | nil =>
    obtain rfl : p = 0 := hchain
    exact ⟨h.random, Halts.succ (Halts.const _), nofun, fun _ _ => rfl⟩
  | cons x l ih =>
    obtain ⟨q, c⟩ := x
    obtain ⟨rfl, hfront⟩ := front_of_woven hchain h0
    have hcl := hfront.copy_out
    generalize hnew : (if h.random p = 0 then h.random else
      Function.update h.random c (h.next (h.random p))) = new
    have hkeep : ∀ y, y ≠ c → new y = h.random y := by
      intro y hy
      rw [← hnew]
      split
      · rfl
      · exact Function.update_of_ne hy _ _
    have hcopy : new c = if h.random p = 0 then h.random c else h.next (h.random p) := by
      rw [← hnew]
      split
      · rfl
      · exact Function.update_self _ _ _
    obtain ⟨random', hrun, hcopies, hframe⟩ :=
      ih (h := { h with random := new }) hfront.chain hfront.rest
    dsimp only at hcopies hframe
    have hcsnd : c ∉ l.map Prod.snd := by
      intro hmem
      obtain ⟨y, hy, rfl⟩ := List.mem_map.1 hmem
      exact hcl (mem_woven hy).2
    refine ⟨random', ?_, ?_, ?_⟩
    · apply Halts.succ
      simp only [randomLoop_step hfront.node_ne (hfront.copy ▸ hfront.copy_ne), hfront.copy, hnew]
      exact hrun
    · intro x hx
      cases List.mem_cons.1 hx with
      | inl heq => rw [heq, hframe c hcsnd, hcopy]
      | inr hx =>
        have h1 : x.1 ≠ c := fun heq => hcl (heq ▸ (mem_woven hx).1)
        have h2 : x.2 ≠ c := fun heq => hcl (heq ▸ (mem_woven hx).2)
        simp only [hcopies x hx, hkeep _ h1, hkeep _ h2]
    · intro q hq
      rw [List.map_cons] at hq
      rw [hframe q fun hmem => hq (List.mem_cons_of_mem _ hmem),
        hkeep q (List.ne_of_not_mem_cons hq)]

end

/-! ## The third loop -/

section
variable {h : RandomHeap} {p c q d : Ptr} {l : List (Ptr × Ptr)}

/-- The last node and its copy. -/
theorem decoupleLoop_last (hp : p ≠ 0) (hpc : c ≠ p) (hnext : h.next p = c) (hc : c ≠ 0)
    (hend : h.next c = 0) (fuel : Nat) : decoupleLoop (fuel + 1) h p =
      decoupleLoop fuel { h with next := Function.update h.next p 0 } 0 := by
  simp [decoupleLoop, hp, load_ok hp, hnext, load_ok hc, hend, store_ok hp, hpc, bind, Except.bind]

theorem decoupleLoop_step (hp : p ≠ 0) (hc : c ≠ 0) (hq : q ≠ 0) (hcp : c ≠ p) (hqp : q ≠ p)
    (hnext : h.next p = c) (hnextc : h.next c = q) (hnextq : h.next q = d) (fuel : Nat) :
    decoupleLoop (fuel + 1) h p = decoupleLoop fuel
      { h with next := Function.update (Function.update h.next p q) c d } q := by
  simp [decoupleLoop, hp, load_ok hp, hnext, load_ok hc, hnextc, store_ok hp, hcp, hq, load_ok hq,
    store_ok hc, hqp, hnextq, hcp.symm, bind, Except.bind]

/-- The nodes and the copies are two lists again. -/
theorem decoupleLoop_halts (hchain : Chain h.next p (woven l) 0) (h0 : 0 ∉ woven l) :
    ∃ next' : Ptr → Ptr, Halts (fun fuel => decoupleLoop fuel h p) (.ok { h with next := next' }) ∧
      Chain next' p (l.map Prod.fst) 0 ∧
      Chain next' ((l.map Prod.snd).head?.getD 0) (l.map Prod.snd) 0 ∧
      ∀ x, x ∉ woven l → next' x = h.next x := by
  induction l generalizing h p with
  | nil =>
    obtain rfl : p = 0 := hchain
    exact ⟨h.next, Halts.succ (Halts.const _), rfl, rfl, fun _ _ => rfl⟩
  | cons x l ih =>
    obtain ⟨q, c⟩ := x
    obtain ⟨rfl, hfront⟩ := front_of_woven hchain h0
    have hpl := hfront.node_out
    have hcl := hfront.copy_out
    cases l with
    | nil =>
      have hend : h.next c = 0 := hfront.chain
      refine ⟨Function.update h.next p 0, ?_, ⟨rfl, ?_⟩, ⟨rfl, ?_⟩, ?_⟩
      · apply Halts.succ
        simp only [decoupleLoop_last hfront.node_ne hfront.distinct hfront.copy hfront.copy_ne hend]
        exact Halts.succ (Halts.const _)
      · exact Function.update_self _ _ _
      · exact (Function.update_of_ne hfront.distinct _ _).trans hend
      · intro x hx
        exact Function.update_of_ne (List.ne_of_not_mem_cons hx) _ _
    | cons y l =>
      obtain ⟨q, d⟩ := y
      have hold := hfront.chain
      obtain ⟨hq, hfront'⟩ := front_of_woven hfront.chain hfront.rest
      rw [hq] at hold hfront'
      have hqp : q ≠ p := fun heq => hpl (by simp [heq])
      generalize hnew : Function.update (Function.update h.next p q) c d = new
      have hnewc : new c = d := by rw [← hnew, Function.update_self]
      have hnewp : new p = q := by
        rw [← hnew, Function.update_of_ne hfront.distinct.symm, Function.update_self]
      have hkeep : ∀ x, x ≠ p → x ≠ c → new x = h.next x := by
        intro x hxp hxc
        rw [← hnew, Function.update_of_ne hxc, Function.update_of_ne hxp]
      have hchain' : Chain new q (woven ((q, d) :: l)) 0 :=
        hold.congr fun x hx =>
          hkeep x (ne_of_mem_of_not_mem hx hpl) (ne_of_mem_of_not_mem hx hcl)
      obtain ⟨next', hrun, hnodes, hcopies, hframe⟩ :=
        ih (h := { h with next := new }) hchain' hfront.rest
      dsimp only at hframe
      refine ⟨next', ?_, ⟨rfl, ?_⟩, ⟨rfl, ?_⟩, ?_⟩
      · apply Halts.succ
        simp only [decoupleLoop_step hfront.node_ne hfront.copy_ne hfront'.node_ne hfront.distinct
          hqp hfront.copy hq hfront'.copy, hnew]
        exact hrun
      · rw [hframe p hpl, hnewp]
        exact hnodes
      · rw [hframe c hcl, hnewc]
        exact hcopies
      · intro x hx
        rw [woven_cons] at hx
        rw [hframe x fun hmem => hx (List.mem_cons_of_mem _ (List.mem_cons_of_mem _ hmem)),
          hkeep x (fun heq => hx (by simp [heq])) fun heq => hx (by simp [heq])]

end

/-! ## All three -/

section
variable {h h' : RandomHeap} {head : Ptr} {ps : List Ptr}

/-- The list from `dup` is a copy of the one from `head`: its `i`-th node is `h.brk + i`. -/
structure Copied (h h' : RandomHeap) (dup : Ptr) (ps : List Ptr) : Prop where
  list : IsList h'.next dup (List.range' h.brk ps.length)
  label : ∀ (i : Nat) (p : Ptr), ps[i]? = some p → h'.label (h.brk + i) = h.label p
  null : ∀ (i : Nat) (p : Ptr), ps[i]? = some p → (h'.random (h.brk + i) = 0 ↔ h.random p = 0)
  random : ∀ (i j : Nat) (p q : Ptr), ps[i]? = some p → ps[j]? = some q →
    (h'.random (h.brk + i) = h.brk + j ↔ h.random p = q)

theorem mem_paired (brk : Ptr) {i : Nat} {p : Ptr} (hp : ps[i]? = some p) :
    (p, brk + i) ∈ paired brk ps := by
  induction ps generalizing brk i with
  | nil => cases hp
  | cons q ps ih =>
    cases i with
    | zero => exact List.mem_cons.2 (.inl (by rw [Option.some.inj hp]; rfl))
    | succ i =>
      have hmem := ih (brk + 1) (i := i) hp
      rw [Nat.add_assoc, Nat.add_comm 1] at hmem
      exact List.mem_cons_of_mem _ hmem

theorem snd_paired {brk q : Ptr} (h : q ∈ (paired brk ps).map Prod.snd) : brk ≤ q := by
  rw [paired_snd] at h
  exact (List.mem_range'_1.1 h).1

theorem of_mem_woven {brk q : Ptr} (h : q ∈ woven (paired brk ps)) : q ∈ ps ∨ brk ≤ q := by
  obtain ⟨x, hx, hq⟩ := List.mem_flatMap.1 h
  simp only [List.mem_cons, List.not_mem_nil, or_false] at hq
  cases hq with
  | inl heq =>
    left
    rw [heq, ← paired_fst brk ps]
    exact List.mem_map_of_mem hx
  | inr heq =>
    right
    rw [heq]
    exact snd_paired (List.mem_map_of_mem hx)

/-- `r` is the copy of the node `q`, or both are null. -/
def CopyOf (brk : Ptr) (ps : List Ptr) (q r : Ptr) : Prop :=
  q = 0 ∧ r = 0 ∨ ∃ j : Nat, ps[j]? = some q ∧ r = brk + j

theorem CopyOf.null_iff {brk q r : Ptr} (h : CopyOf brk ps q r) (hbrk : 0 < brk) (h0 : 0 ∉ ps) :
    r = 0 ↔ q = 0 := by
  obtain ⟨hq, hr⟩ | ⟨j, hj, rfl⟩ := h
  · exact iff_of_true hr hq
  · refine iff_of_false (Nat.add_pos_left hbrk j).ne' fun hq => h0 ?_
    exact hq ▸ List.mem_of_getElem? hj

theorem CopyOf.node_iff {brk q r p : Ptr} {j : Nat} (h : CopyOf brk ps q r) (hbrk : 0 < brk)
    (h0 : 0 ∉ ps) (hnd : ps.Nodup) (hp : ps[j]? = some p) : r = brk + j ↔ q = p := by
  obtain ⟨rfl, rfl⟩ | ⟨k, hk, rfl⟩ := h
  · refine iff_of_false (Nat.add_pos_left hbrk j).ne fun hq => h0 ?_
    exact hq ▸ List.mem_of_getElem? hp
  · rw [Nat.add_left_cancel_iff]
    constructor
    · rintro rfl
      exact Option.some.inj (hk.symm.trans hp)
    · rintro rfl
      obtain ⟨hk, hpk⟩ := List.getElem?_eq_some_iff.1 hk
      obtain ⟨hj, hpj⟩ := List.getElem?_eq_some_iff.1 hp
      exact hnd.getElem_inj_iff.1 (hpk.trans hpj.symm)

/-- The copies' random pointers go where the nodes' own go. -/
theorem Inserted.random_eq {random' : Ptr → Ptr} (hins : Inserted h h' head ps) (h0 : 0 ∉ ps)
    (hlt : ∀ q ∈ ps, q < h.brk) (hrandom : ∀ p ∈ ps, h.random p = 0 ∨ h.random p ∈ ps)
    (hcopies : ∀ x ∈ paired h.brk ps, random' x.2 =
      if h'.random x.1 = 0 then h'.random x.2 else h'.next (h'.random x.1))
    {i : Nat} {p : Ptr} (hp : ps[i]? = some p) :
    CopyOf h.brk ps (h.random p) (random' (h.brk + i)) := by
  have hmem : p ∈ ps := List.mem_of_getElem? hp
  have hpair := mem_paired h.brk hp
  have hcopy := hcopies _ hpair
  rw [hins.random _ hpair] at hcopy
  simp only [(hins.old p (hlt p hmem)).2] at hcopy
  cases hrandom p hmem with
  | inl hnull => exact .inl ⟨hnull, by rw [hcopy, if_pos hnull]⟩
  | inr hin =>
    obtain ⟨j, hj⟩ := List.mem_iff_getElem?.1 hin
    refine .inr ⟨j, hj, ?_⟩
    rw [hcopy, if_neg fun heq : h.random p = 0 => h0 (heq ▸ hin)]
    exact next_of_woven hins.chain _ (mem_paired h.brk hj)

/-- The loops one after the other, and the first copy. -/
theorem copyRandomList_halts {h₁ h₂ h₃ : RandomHeap} (hlist : IsList h.next head ps)
    (hins : Inserted h h₁ head ps)
    (hrun₁ : Halts (fun fuel => insertLoop fuel h head) (.ok h₁))
    (hrun₂ : Halts (fun fuel => randomLoop fuel h₁ head) (.ok h₂))
    (hrun₃ : Halts (fun fuel => decoupleLoop fuel h₂ head) (.ok h₃)) (hnext : h₂.next = h₁.next) :
    Halts (fun fuel => copyRandomList fuel h head)
      (.ok ((List.range' h.brk ps.length).head?.getD 0, h₃)) := by
  obtain ⟨a, ha⟩ := hrun₁
  obtain ⟨b, hb⟩ := hrun₂
  obtain ⟨c, hc⟩ := hrun₃
  refine ⟨max a (max b c), fun fuel hfuel => ?_⟩
  have hab : a ≤ fuel ∧ b ≤ fuel ∧ c ≤ fuel := by omega
  simp only [copyRandomList, ha fuel hab.1, hb fuel hab.2.1, bind, Except.bind]
  cases ps with
  | nil =>
    obtain rfl : head = 0 := hlist.1
    simp only [if_true, pure, Except.pure, hc fuel hab.2.2]
    rfl
  | cons p ps =>
    obtain ⟨rfl, _⟩ := hlist.1
    have hhead : head ≠ 0 := fun heq => hlist.2 (by simp [heq])
    have hfirst : h₂.next head = h.brk := by
      rw [hnext]
      exact next_of_woven hins.chain _ List.mem_cons_self
    simp only [if_neg hhead, load_ok hhead, hc fuel hab.2.2, hfirst]
    rfl

/-- **The list is copied, and no old node is changed.** -/
theorem copyRandomList_spec (hlist : IsList h.next head ps) (hlt : ∀ q ∈ ps, q < h.brk)
    (hbrk : 0 < h.brk) (hrandom : ∀ p ∈ ps, h.random p = 0 ∨ h.random p ∈ ps) :
    ∃ (dup : Ptr) (h' : RandomHeap),
    Halts (fun fuel => copyRandomList fuel h head) (.ok (dup, h')) ∧ Copied h h' dup ps ∧
      ∀ q < h.brk, h'.label q = h.label q ∧ h'.next q = h.next q ∧ h'.random q = h.random q := by
  obtain ⟨h1, hrun1, hins⟩ := insertLoop_halts hlist.1 hlist.2 hlt
  have hw0 : 0 ∉ woven (paired h.brk ps) := by
    intro hmem
    cases of_mem_woven hmem with
    | inl hmem => exact hlist.2 hmem
    | inr hle => exact absurd hbrk (Nat.not_lt.2 hle)
  obtain ⟨random', hrun2, hcopies, hframe2⟩ := randomLoop_halts hins.chain hw0
  obtain ⟨next', hrun3, hnodes, hdup, hframe3⟩ :=
    decoupleLoop_halts (h := { h1 with random := random' }) hins.chain hw0
  dsimp only at hframe3
  rw [paired_fst] at hnodes
  rw [paired_snd] at hdup
  have hsame : ∀ q < h.brk, next' q = h.next q := by
    intro q hq
    by_cases hmem : q ∈ ps
    · exact Chain.next_eq hlist.1 hnodes q hmem
    · have hout : q ∉ woven (paired h.brk ps) := fun hw =>
        (of_mem_woven hw).elim hmem (Nat.not_le.2 hq)
      rw [hframe3 q hout, hins.next q hq hmem]
  have hcopyOf := fun (i : Nat) (p : Ptr) =>
    hins.random_eq hlist.2 hlt hrandom hcopies (i := i) (p := p)
  refine ⟨_, { h1 with random := random', next := next' },
    copyRandomList_halts hlist hins hrun1 hrun2 hrun3 rfl, ⟨⟨hdup, ?_⟩, ?_, ?_, ?_⟩, ?_⟩
  · intro hmem
    exact absurd hbrk (Nat.not_lt.2 (List.mem_range'_1.1 hmem).1)
  · intro i p hp
    exact hins.label _ (mem_paired h.brk hp)
  · intro i p hp
    exact (hcopyOf i p hp).null_iff hbrk hlist.2
  · intro i j p q hp hq
    exact (hcopyOf i p hp).node_iff hbrk hlist.2 hlist.nodup hq
  · intro q hq
    have hout : q ∉ (paired h.brk ps).map Prod.snd := fun hmem =>
      absurd hq (Nat.not_lt.2 (snd_paired hmem))
    obtain ⟨hlabel, hold⟩ := hins.old q hq
    exact ⟨hlabel, hsame q hq, (hframe2 q hout).trans hold⟩

end

theorem copyRandomList_two : ∃ (dup : Ptr) (h' : RandomHeap),
    Halts (fun fuel => copyRandomList fuel
      { label := fun _ => 7, next := fun p => if p = 1 then 2 else 0, random := fun _ => 2,
        brk := 3 } 1) (.ok (dup, h')) ∧
      IsList h'.next dup [3, 4] ∧ h'.random 3 = 4 ∧ h'.random 4 = 4 := by
  obtain ⟨dup, h', hrun, hcopied, _⟩ := @copyRandomList_spec
    { label := fun _ => 7, next := fun p => if p = 1 then 2 else 0, random := fun _ => 2, brk := 3 }
    1 [1, 2] (by simp [IsList, Chain]) (by decide) (by decide) (by decide)
  exact ⟨dup, h', hrun, hcopied.list, (hcopied.random 0 1 1 2 rfl rfl).2 rfl,
    (hcopied.random 1 1 2 2 rfl rfl).2 rfl⟩

end Class2
