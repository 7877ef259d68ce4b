import DsAlgor.Bptree.Operations

/-!
# The tree as an ordered finite map

The map takes the rank of a key to the entry of the key, with its value. Every sequence of
operations on a new tree returns, does to the map what it should, and leaves a chain of leaves that
lists exactly the entries of the map, in strictly ascending order (`bptree_refines_map`).
-/

namespace Bptree

open CArray PtrTree

variable {K V α : Type}

/-- The entries of a leaf. -/
def Node.held (n : Node K) : List Ptr := (List.range n.count).map n.entries

/-- The entries on the chain of leaves from `t->min` on. -/
def Lists (t : Tree K V) (es : List Ptr) : Prop :=
  ∃ ps, 0 ∉ ps ∧ Chain (fun p => (t.node p).next) t.min ps 0 ∧ es = ps.flatMap fun p =>
    (t.node p).held

/-- The entries `es` with their values are the map. -/
def Entered (rank : K → α) (t : Tree K V) (es : List Ptr) (m : α → Option (Ptr × V)) : Prop :=
  ∀ a e v, m a = some (e, v) ↔ e ∈ es ∧ rank (t.key e) = a ∧ (t.entry e).val = v

theorem Entered.absent {rank : K → α} {t : Tree K V} {es : List Ptr} {m : α → Option (Ptr × V)}
    {a : α}
    (h : Entered rank t es m) (ha : ∀ x ∈ es, rank (t.key x) ≠ a) : m a = none := by
  cases hm : m a with
  | none => rfl
  | some x =>
    obtain ⟨hx, hrank, -⟩ := (h a x.1 x.2).1 hm
    exact absurd hrank (ha x.1 hx)

theorem Entered.present {rank : K → α} {t : Tree K V} {es : List Ptr} {m : α → Option (Ptr × V)}
    {e : Ptr} {a : α} (h : Entered rank t es m) (he : e ∈ es) (ha : rank (t.key e) = a) :
    m a = some (e, (t.entry e).val) :=
  (h a e _).2 ⟨he, ha, rfl⟩

variable [LinearOrder α]

/-- The entries of the map are those on the chain, in ascending order. -/
def Represents (rank : K → α) (t : Tree K V) (m : α → Option (Ptr × V)) : Prop :=
  ∃ es, Lists t es ∧ Ascending rank t es ∧ Entered rank t es m

variable [DecidableEq K]

inductive Op (K V : Type)
  | add (key : K) (val : V)
  | addRaw (key : K)
  | replace (key : K) (val : V)
  | replaceRaw (key : K)
  | delete (key : K)
  | find (key : K)

/-- A return code or an entry. -/
inductive Result
  | code (c : Int)
  | entry (e : Ptr)

def Op.step (type : KeyType K V) (t : Tree K V) : Op K V → Option (Result × Tree K V)
  | .add key val => (bptreeAdd type t key val).map fun (c, t) => (.code c, t)
  | .addRaw key => (bptreeAddRaw type t key).map fun (e, t) => (.entry e, t)
  | .replace key val => (bptreeReplace type t key val).map fun (c, t) => (.code c, t)
  | .replaceRaw key => (bptreeReplaceRaw type t key).map fun (e, t) => (.entry e, t)
  | .delete key => (bptreeDelete type t key).map fun (c, t) => (.code c, t)
  | .find key => (bptreeFind type t (some key)).map fun e => (.entry e, t)

/-- What an operation does to the map. A copied value is what `valDup` makes of it. -/
def Op.Spec (type : KeyType K V) (rank : K → α) (m : α → Option (Ptr × V)) :
    Op K V → Result → (α → Option (Ptr × V)) → Prop
  | .add key val, r, m' =>
    (m (rank key) = none → r = .code BPT_OK ∧
      ∃ e brk, e ≠ 0 ∧ m' = Function.update m (rank key) (some (e, type.setVal brk val))) ∧
    (m (rank key) ≠ none → r = .code BPT_ERR ∧ m' = m)
  | .addRaw key, r, m' =>
    (m (rank key) = none → ∃ e v, e ≠ 0 ∧ r = .entry e ∧
      m' = Function.update m (rank key) (some (e, v))) ∧
    (m (rank key) ≠ none → r = .entry 0 ∧ m' = m)
  | .replace key val, _, m' =>
    (m (rank key) = none → ∃ e brk, e ≠ 0 ∧
      m' = Function.update m (rank key) (some (e, type.setVal brk val))) ∧
    ∀ e v, m (rank key) = some (e, v) →
      ∃ brk, m' = Function.update m (rank key) (some (e, type.setVal brk val))
  | .replaceRaw key, r, m' =>
    (m (rank key) = none → ∃ e v, e ≠ 0 ∧ r = .entry e ∧
      m' = Function.update m (rank key) (some (e, v))) ∧
    ∀ e v, m (rank key) = some (e, v) → r = .entry e ∧ m' = m
  | .delete key, r, m' =>
    (m (rank key) = none → r = .code BPT_ERR ∧ m' = m) ∧
    (m (rank key) ≠ none → r = .code BPT_OK ∧ m' = Function.update m (rank key) none)
  | .find key, r, m' =>
    m' = m ∧ (m (rank key) = none → r = .entry 0) ∧ ∀ e v, m (rank key) = some (e, v) →
      e ≠ 0 ∧ r = .entry e

/-- The operations return and do what they should, one after the other. -/
def Refines (type : KeyType K V) (rank : K → α) : Tree K V → (α → Option (Ptr × V)) →
    List (Op K V) → Prop
  | t, m, [] => Represents rank t m
  | t, m, op :: ops => Represents rank t m ∧
    ∃ r t' m', op.step type t = some (r, t') ∧ op.Spec type rank m r m' ∧
      Refines type rank t' m' ops

/-! ## The chain -/

section
variable {type : KeyType K V} {rank : K → α} {t t' : Tree K V} {root : Bool} {l : Nat} {T : Shape}
  {es : List Ptr}

omit [DecidableEq K] in
theorem Entries.held {n : Node K} (h : Entries n es) : n.held = es := by
  unfold Node.held
  refine List.ext_getElem? fun j => ?_
  rw [h.count, List.getElem?_map]
  by_cases hj : j < es.length
  · rw [List.getElem?_range hj, h.entry j hj]
    rfl
  · rw [List.getElem?_eq_none (by simpa using hj), List.getElem?_eq_none (by omega)]
    rfl

omit [DecidableEq K] in
theorem Sub.entries (h : Sub t root l T) : ∀ x ∈ T.leaves, Entries (t.node x.1) x.2 := by
  induction l generalizing T root with
  | zero =>
    cases T with
    | leaf p es =>
      intro x hx
      rw [leaves_leaf, List.mem_singleton] at hx
      rw [hx]
      exact LeafOk.toEntries h
    | node p cs => exact h.elim
  | succ l ih =>
    cases T with
    | leaf p es => exact h.elim
    | node p cs =>
      intro x hx
      rw [leaves_node, List.mem_flatMap] at hx
      obtain ⟨c, hc, hx⟩ := hx
      exact ih (h.2 c hc) x hx

omit [DecidableEq K] in
theorem Built.lists {L : Nat} (h : Built t L T) : Lists t T.elems := by
  refine ⟨T.leaves.map Prod.fst, ?_, h.chain, ?_⟩
  · intro hmem
    exact lt_irrefl 0 (h.bound 0 ((leaves_sublist T).subset hmem)).1
  · unfold elems
    rw [List.flatMap_map]
    refine List.flatMap_congr fun x hx => ?_
    exact (h.sub.entries x hx).held.symm

omit [DecidableEq K] in
theorem Stands.lists (h : Stands rank t es) : Lists t es := by
  cases h with
  | empty _ min => exact ⟨[], List.not_mem_nil, min, rfl⟩
  | tree h => exact h.toBuilt.lists

end

/-! ## The map -/

section
variable {type : KeyType K V} {rank : K → α} {t t' : Tree K V} {es X Y : List Ptr}
  {m : α → Option (Ptr × V)} {e b : Ptr} {a : α} {key : K} {val : V}

omit [DecidableEq K]

theorem Entered.insert (h : Entered rank t (X ++ Y) m)
    (hentry : ∀ x ∈ X ++ Y, t'.entry x = t.entry x) (hb : rank (t'.key b) = a)
    (ha : ∀ x ∈ X ++ Y, rank (t.key x) ≠ a) :
    Entered rank t' (X ++ b :: Y) (Function.update m a (some (b, (t'.entry b).val))) := by
  intro c e v
  have hkey : ∀ x ∈ X ++ Y, t'.key x = t.key x := by
    intro x hx
    unfold Tree.key
    rw [hentry x hx]
  have hmem : e ∈ X ++ b :: Y ↔ e = b ∨ e ∈ X ++ Y := by
    simp only [List.mem_append, List.mem_cons]
    grind
  rw [hmem]
  by_cases hc : c = a
  · rw [hc, Function.update_self, Option.some.injEq, Prod.mk.injEq]
    constructor
    · rintro ⟨rfl, rfl⟩
      exact ⟨.inl rfl, hb, rfl⟩
    · rintro ⟨rfl | he, hrank, hval⟩
      · exact ⟨rfl, hval⟩
      · rw [hkey e he] at hrank
        exact absurd hrank (ha e he)
  · rw [Function.update_of_ne hc, h c e v]
    constructor
    · rintro ⟨he, hrank, hval⟩
      rw [hkey e he, hentry e he]
      exact ⟨.inr he, hrank, hval⟩
    · rintro ⟨rfl | he, hrank, hval⟩
      · exact absurd (hrank.symm.trans hb) hc
      · rw [hkey e he] at hrank
        rw [hentry e he] at hval
        exact ⟨he, hrank, hval⟩

/-- Two entries of the tree have different keys. -/
theorem Ascending.ne (h : Ascending rank t (X ++ e :: Y)) {x : Ptr} (hx : x ∈ X ++ Y) :
    rank (t.key x) ≠ rank (t.key e) := by
  obtain ⟨-, h2, h3⟩ := List.pairwise_append.1 h
  rcases List.mem_append.1 hx with hx | hx
  · exact ne_of_lt (h3 x hx e List.mem_cons_self)
  · exact ne_of_gt ((List.pairwise_cons.1 h2).1 x hx)

theorem Entered.delete (h : Entered rank t (X ++ e :: Y) m) (hasc : Ascending rank t (X ++ e :: Y))
    (hentry : t'.entry = t.entry) (ha : rank (t.key e) = a) :
    Entered rank t' (X ++ Y) (Function.update m a none) := by
  intro c x v
  unfold Tree.key
  rw [hentry]
  by_cases hc : c = a
  · rw [hc, Function.update_self]
    constructor
    · intro hno
      cases hno
    · rintro ⟨hx, hrank, -⟩
      exact absurd (hrank.trans ha.symm) (hasc.ne hx)
  · rw [Function.update_of_ne hc, h c x v]
    constructor
    · rintro ⟨hx, hrank, hval⟩
      refine ⟨?_, hrank, hval⟩
      rw [List.mem_append, List.mem_cons] at hx
      rcases hx with hx | rfl | hx
      · exact List.mem_append_left _ hx
      · exact absurd (hrank.symm.trans ha) hc
      · exact List.mem_append_right _ hx
    · rintro ⟨hx, hrank, hval⟩
      refine ⟨?_, hrank, hval⟩
      rw [List.mem_append, List.mem_cons]
      exact (List.mem_append.1 hx).imp_right .inr

theorem setVal_key (t : Tree K V) (e x : Ptr) (val : V) :
    (t.setVal type e val).key x = t.key x := by
  unfold Tree.setVal Tree.setEntry Tree.key
  dsimp only
  by_cases hx : x = e
  · rw [hx, Function.update_self]
  · rw [Function.update_of_ne hx]

theorem Entered.setVal (type : KeyType K V) (val : V) (h : Entered rank t es m)
    (hasc : Ascending rank t es) (he : e ∈ es) (ha : rank (t.key e) = a) :
    Entered rank (t.setVal type e val) es
      (Function.update m a (some (e, type.setVal t.brk val))) := by
  obtain ⟨X, Y, rfl⟩ := List.append_of_mem he
  have hself : ((t.setVal type e val).entry e).val = type.setVal t.brk val := by
    unfold Tree.setVal Tree.setEntry
    dsimp only
    rw [Function.update_self]
  rw [← hself, ← Function.update_idem]
  refine Entered.insert (h.delete hasc rfl ha) ?_ ?_ fun x hx => ?_
  · intro x hx
    have hxe : x ≠ e := fun heq => hasc.ne hx (by rw [heq])
    exact Function.update_of_ne hxe _ _
  · rw [setVal_key]
    exact ha
  · rw [← ha]
    exact hasc.ne hx

end

/-! ## The operations -/

section
variable {type : KeyType K V} {rank : K → α} {t : Tree K V} {es : List Ptr}
  {m : α → Option (Ptr × V)}

variable (ho : KeyOrder type rank)
include ho

variable (h : Stands rank t es)
include h

/-- Search, with what the map says. -/
theorem Stands.lookup (hm : Entered rank t es m) (key : K) :
    ∃ e path, bptreeFindEntry type t key t.path = some (e, path) ∧
      (e ≠ 0 → e ∈ es ∧ rank (t.key e) = rank key ∧ m (rank key) = some (e, (t.entry e).val)) ∧
      (e = 0 → (∀ x ∈ es, rank (t.key x) ≠ rank key) ∧ m (rank key) = none) := by
  obtain ⟨e, path, hrun, hfound, habsent⟩ := h.find ho key t.path
  refine ⟨e, path, hrun, fun he => ?_, fun he => ⟨habsent he, hm.absent (habsent he)⟩⟩
  obtain ⟨hmem, hrank⟩ := hfound he
  exact ⟨hmem, hrank, hm.present hmem hrank⟩

/-- A new entry in the tree, and in the map. -/
theorem Stands.enter (hm : Entered rank t es m) {key : K} {path : PathInfo}
    (hfind : bptreeFindEntry type t key t.path = some (0, path))
    (habsent : ∀ x ∈ es, rank (t.key x) ≠ rank key) {f : Ptr → Entry K V}
    (hf : ∀ x ≠ t.brk, f x = t.entry x) (hkey : rank (f t.brk).key = rank key) :
    ∃ t' es', insertIntoLeafNode { t with entry := f, brk := t.brk + 1 } path t.brk = some t' ∧
      Stands rank t' es' ∧ t.brk ∈ es' ∧ t'.entry = f ∧ Entered rank t' es'
        (Function.update m (rank key) (some (t.brk, (f t.brk).val))) := by
  have hstored := h.stored
  obtain ⟨t', X, Y, hrun, rfl, hstands, hentry, -, -⟩ := h.insert ho hfind hf hkey
  refine ⟨t', X ++ t.brk :: Y, hrun, hstands, by simp, hentry, ?_⟩
  have hrank : rank (t'.key t.brk) = rank key := by
    unfold Tree.key
    rw [hentry]
    exact hkey
  have hnew := hm.insert ?_ hrank habsent
  · rw [hentry] at hnew
    exact hnew
  · intro x hx
    rw [hentry, hf x (ne_of_lt (hstored x hx).2)]

/-- The raw insertion, where the key is not there. -/
theorem Stands.allocate (hm : Entered rank t es m) {key : K} {path : PathInfo}
    (hfind : bptreeFindEntry type t key t.path = some (0, path))
    (habsent : ∀ x ∈ es, rank (t.key x) ≠ rank key) :
    ∃ t' es' v, insertIntoLeafNode (t.allocateEntry type key).2 path t.brk = some t' ∧
      Stands rank t' es' ∧ t.brk ∈ es' ∧ rank (t'.key t.brk) = rank key ∧
      Entered rank t' es' (Function.update m (rank key) (some (t.brk, v))) := by
  obtain ⟨t', es', hrun, hstands, hmem, hentry, hnew⟩ := h.enter ho hm hfind habsent
    (f := (t.allocateEntry type key).2.entry) (fun x hx => Function.update_of_ne hx _ _) (by
      unfold Tree.allocateEntry
      dsimp only
      rw [Function.update_self]
      exact ho.dup _ _)
  refine ⟨t', es', _, hrun, hstands, hmem, ?_, hnew⟩
  unfold Tree.key Tree.allocateEntry at *
  rw [hentry]
  dsimp only
  rw [Function.update_self]
  exact ho.dup _ _

theorem Stands.addRaw (hm : Entered rank t es m) (key : K) :
    (m (rank key) ≠ none ∧ bptreeAddRaw type t key = some (0, t)) ∨
      (m (rank key) = none ∧ ∃ t' es' v, bptreeAddRaw type t key = some (t.brk, t') ∧
      Stands rank t' es' ∧ t.brk ∈ es' ∧ rank (t'.key t.brk) = rank key ∧
        Entered rank t' es' (Function.update m (rank key) (some (t.brk, v)))) := by
  obtain ⟨e, path, hrun, hfound, habsent⟩ := h.lookup ho hm key
  by_cases he : e = 0
  · obtain ⟨hno, hnone⟩ := habsent he
    subst he
    obtain ⟨t', es', v, hins, hstands, hmem, hrank, hnew⟩ := h.allocate ho hm hrun hno
    refine .inr ⟨hnone, t', es', v, ?_, hstands, hmem, hrank, hnew⟩
    unfold bptreeAddRaw
    rw [hrun]
    show (insertIntoLeafNode (t.allocateEntry type key).2 path t.brk).bind
      (fun t => some (_, t)) = _
    rw [hins]
    rfl
  · obtain ⟨-, -, hsome⟩ := hfound he
    refine .inl ⟨by rw [hsome]; exact Option.some_ne_none _, ?_⟩
    unfold bptreeAddRaw
    rw [hrun]
    dsimp only [bind, Option.bind]
    rw [if_pos he]
    rfl

theorem Stands.add (hm : Entered rank t es m) (key : K) (val : V) :
    ∃ c t' es' m', bptreeAdd type t key val = some (c, t') ∧
      (Op.add key val).Spec type rank m (.code c) m' ∧ Stands rank t' es' ∧
      Entered rank t' es' m' := by
  rcases h.addRaw ho hm key with ⟨hsome, hrun⟩ | ⟨hnone, t', es', v, hrun, hstands,
    hmem, hrank, hnew⟩
  · refine ⟨BPT_ERR, t, es, m, ?_, ⟨fun hno => absurd hno hsome, fun _ => ⟨rfl, rfl⟩⟩, h, hm⟩
    unfold bptreeAdd
    rw [hrun]
    rfl
  · have hval := hnew.setVal type val hstands.ascending hmem hrank
    rw [Function.update_idem] at hval
    have hne : t.brk ≠ 0 := Nat.ne_of_gt h.brk_pos
    refine ⟨BPT_OK, t'.setVal type t.brk val, es', _, ?_, ⟨fun _ => ⟨rfl, t.brk, t'.brk, hne, rfl⟩,
      fun hsome => absurd hnone hsome⟩, hstands.setVal _ _, hval⟩
    unfold bptreeAdd
    rw [hrun]
    dsimp only [bind, Option.bind]
    rw [if_neg hne]
    rfl

theorem Stands.replace (hm : Entered rank t es m) (key : K) (val : V) :
    ∃ c t' es' m', bptreeReplace type t key val = some (c, t') ∧
      (Op.replace key val).Spec type rank m (.code c) m' ∧ Stands rank t' es' ∧
      Entered rank t' es' m' := by
  obtain ⟨e, path, hrun, hfound, habsent⟩ := h.lookup ho hm key
  by_cases he : e = 0
  · obtain ⟨hno, hnone⟩ := habsent he
    subst he
    obtain ⟨t', es', hins, hstands, -, -, hnew⟩ := h.enter ho hm hrun hno
      (f := ((t.allocateEntry type key).2.setVal type t.brk val).entry)
      (fun x hx => (Function.update_of_ne hx _ _).trans (Function.update_of_ne hx _ _))
      ((congrArg rank (setVal_key _ _ _ _)).trans (by
        unfold Tree.allocateEntry Tree.key
        dsimp only
        rw [Function.update_self]
        exact ho.dup _ _))
    have hval : (((t.allocateEntry type key).2.setVal type t.brk val).entry t.brk).val = type.setVal
      (t.brk + 1) val := by
      unfold Tree.setVal Tree.setEntry
      dsimp only
      rw [Function.update_self]
      rfl
    rw [hval] at hnew
    refine ⟨0, t', es', _, ?_, ⟨fun _ => ⟨t.brk, t.brk + 1, Nat.ne_of_gt h.brk_pos, rfl⟩,
      fun e v hsome => ?_⟩, hstands, hnew⟩
    · unfold bptreeReplace
      rw [hrun]
      show (insertIntoLeafNode ((t.allocateEntry type key).2.setVal type t.brk val) path t.brk).bind
        (fun t => some (0, t)) = _
      rw [show insertIntoLeafNode ((t.allocateEntry type key).2.setVal type t.brk val) path t.brk =
        some t' from hins]
      rfl
    · rw [hnone] at hsome
      cases hsome
  · obtain ⟨hmem, hrank, hsome⟩ := hfound he
    refine ⟨1, t.setVal type e val, es, _, ?_, ⟨fun hnone => ?_, fun e' v hsome' => ⟨t.brk, ?_⟩⟩,
      h.setVal e val, hm.setVal _ _ h.ascending hmem hrank⟩
    · unfold bptreeReplace
      rw [hrun]
      dsimp only [bind, Option.bind]
      rw [if_pos he]
      rfl
    · rw [hsome] at hnone
      cases hnone
    · rw [hsome, Option.some.injEq, Prod.mk.injEq] at hsome'
      rw [hsome'.1]

theorem Stands.replaceRaw (hm : Entered rank t es m) (key : K) :
    ∃ e t' es' m', bptreeReplaceRaw type t key = some (e, t') ∧
      (Op.replaceRaw key).Spec type rank m (.entry e) m' ∧ Stands rank t' es' ∧
      Entered rank t' es' m' := by
  obtain ⟨e, path, hrun, hfound, habsent⟩ := h.lookup ho hm key
  by_cases he : e = 0
  · obtain ⟨hno, hnone⟩ := habsent he
    subst he
    obtain ⟨t', es', v, hins, hstands, -, -, hnew⟩ := h.allocate ho hm hrun hno
    refine ⟨t.brk, t', es', _, ?_, ⟨fun _ => ⟨t.brk, v, Nat.ne_of_gt h.brk_pos, rfl, rfl⟩,
      fun e v hsome => ?_⟩, hstands, hnew⟩
    · unfold bptreeReplaceRaw
      rw [hrun]
      show (insertIntoLeafNode (t.allocateEntry type key).2 path t.brk).bind
        (fun t => some (_, t)) = _
      rw [hins]
      rfl
    · rw [hnone] at hsome
      cases hsome
  · obtain ⟨-, -, hsome⟩ := hfound he
    refine ⟨e, t, es, m, ?_, ⟨fun hnone => ?_, fun e' v hsome' => ?_⟩, h, hm⟩
    · unfold bptreeReplaceRaw
      rw [hrun]
      dsimp only [bind, Option.bind]
      rw [if_pos he]
      rfl
    · rw [hsome] at hnone
      cases hnone
    · rw [hsome, Option.some.injEq, Prod.mk.injEq] at hsome'
      rw [hsome'.1]
      exact ⟨rfl, rfl⟩

theorem Stands.remove (hm : Entered rank t es m) (key : K) :
    ∃ c t' es' m', bptreeDelete type t key = some (c, t') ∧
      (Op.delete key : Op K V).Spec type rank m (.code c) m' ∧ Stands rank t' es' ∧
      Entered rank t' es' m' := by
  obtain ⟨e, path, hrun, hfound, habsent⟩ := h.lookup ho hm key
  by_cases he : e = 0
  · obtain ⟨-, hnone⟩ := habsent he
    refine ⟨BPT_ERR, t, es, m, ?_, ⟨fun _ => ⟨rfl, rfl⟩, fun hsome => absurd hnone hsome⟩, h, hm⟩
    unfold bptreeDelete
    rw [hrun]
    dsimp only [bind, Option.bind]
    rw [if_pos he]
    rfl
  · obtain ⟨-, hrank, hsome⟩ := hfound he
    have hasc := h.ascending
    obtain ⟨t', X, Y, hdel, rfl, hstands, hentry, -, -⟩ := h.delete ho hrun he
    refine ⟨BPT_OK, t', X ++ Y, _, ?_, ⟨fun hnone => ?_, fun _ => ⟨rfl, rfl⟩⟩, hstands,
      hm.delete hasc hentry hrank⟩
    · unfold bptreeDelete
      rw [hrun]
      dsimp only [bind, Option.bind]
      rw [if_neg he, hdel]
      rfl
    · rw [hsome] at hnone
      cases hnone

/-- One operation. -/
theorem Stands.step (hm : Entered rank t es m) (op : Op K V) :
    ∃ r t' es' m', op.step type t = some (r, t') ∧ op.Spec type rank m r m' ∧ Stands rank t' es' ∧
      Entered rank t' es' m' := by
  cases op with
  | add key val =>
    obtain ⟨c, t', es', m', hrun, hspec, hrest⟩ := h.add ho hm key val
    refine ⟨.code c, t', es', m', ?_, hspec, hrest⟩
    rw [Op.step, hrun]
    rfl
  | addRaw key =>
    rcases h.addRaw ho hm key with ⟨hsome, hrun⟩ | ⟨hnone, t', es', v, hrun, hstands, -, -, hnew⟩
    · refine ⟨.entry 0, t, es, m, ?_, ⟨fun hnone => absurd hnone hsome, fun _ => ⟨rfl, rfl⟩⟩, h, hm⟩
      rw [Op.step, hrun]
      rfl
    · refine ⟨.entry t.brk, t', es', _, ?_, ⟨fun _ => ⟨t.brk, v, Nat.ne_of_gt h.brk_pos, rfl, rfl⟩,
        fun hsome => absurd hnone hsome⟩, hstands, hnew⟩
      rw [Op.step, hrun]
      rfl
  | replace key val =>
    obtain ⟨c, t', es', m', hrun, hspec, hrest⟩ := h.replace ho hm key val
    refine ⟨.code c, t', es', m', ?_, hspec, hrest⟩
    rw [Op.step, hrun]
    rfl
  | replaceRaw key =>
    obtain ⟨e, t', es', m', hrun, hspec, hrest⟩ := h.replaceRaw ho hm key
    refine ⟨.entry e, t', es', m', ?_, hspec, hrest⟩
    rw [Op.step, hrun]
    rfl
  | delete key =>
    obtain ⟨c, t', es', m', hrun, hspec, hrest⟩ := h.remove ho hm key
    refine ⟨.code c, t', es', m', ?_, hspec, hrest⟩
    rw [Op.step, hrun]
    rfl
  | find key =>
    obtain ⟨e, path, hrun, hfound, habsent⟩ := h.lookup ho hm key
    refine ⟨.entry e, t, es, m, ?_, ⟨rfl, fun hnone => ?_, fun e' v hsome => ?_⟩, h, hm⟩
    · rw [Op.step, bptreeFind, hrun]
      rfl
    · by_cases he : e = 0
      · rw [he]
      · rw [(hfound he).2.2] at hnone
        cases hnone
    · by_cases he : e = 0
      · rw [(habsent he).2] at hsome
        cases hsome
      · rw [(hfound he).2.2, Option.some.injEq, Prod.mk.injEq] at hsome
        rw [← hsome.1]
        exact ⟨he, rfl⟩

theorem Stands.refines (hm : Entered rank t es m) (ops : List (Op K V)) :
    Refines type rank t m ops := by
  induction ops generalizing t es m with
  | nil => exact ⟨es, h.lists, h.ascending, hm⟩
  | cons op ops ih =>
    obtain ⟨r, t', es', m', hrun, hspec, hstands, hnew⟩ := h.step ho hm op
    exact ⟨⟨es, h.lists, h.ascending, hm⟩, r, t', m', hrun, hspec, ih hstands hnew⟩

end

omit [DecidableEq K] in
theorem stands_create (rank : K → α) {mem : Tree K V} (hmem : 0 < mem.brk) :
    Stands rank (bptreeCreate mem) [] :=
  .empty rfl rfl rfl rfl hmem

/-- Numbers as keys. -/
def numberKeys : KeyType Nat Nat := ⟨none, none, some fun a b => (a : Int) - b⟩

theorem numberKeys_order : KeyOrder numberKeys (id : Nat → Nat) where
  lt a b := by
    show (a : Int) - b < 0 ↔ a < b
    omega
  eq a b := by
    show (a : Int) - b = 0 ↔ a = b
    omega
  dup _ _ := rfl

/-- A memory in which the key of an entry is its address. -/
def numbered (brk : Ptr) : Tree Nat Nat where
  innerOrder := 0
  leafOrder := 0
  count := 0
  root := 0
  min := 0
  node _ := ⟨fun _ => 0, fun _ => 0, fun _ => 0, 0, 0, 0, false⟩
  entry p := ⟨p, 0⟩
  path := ⟨fun _ => 0, fun _ => 0⟩
  brk := brk

/-- **The tree of jimDB refines an ordered finite map**, in every sequence of operations on a new
tree. -/
theorem bptree_refines_map (type : KeyType K V) (rank : K → α) (ho : KeyOrder type rank)
    (mem : Tree K V) (hmem : 0 < mem.brk) (ops : List (Op K V)) :
    Refines type rank (bptreeCreate mem) (fun _ => none) ops := by
  refine (stands_create rank hmem).refines ho (fun a e v => ?_) ops
  constructor
  · intro hno
    cases hno
  · rintro ⟨he, -, -⟩
    cases he

theorem numbers_refine_map : 0 < (numbered 1).brk ∧
    Refines numberKeys id (bptreeCreate (numbered 1)) (fun _ => none)
      [.add 3 7, .replace 3 8, .delete 3, .find 3] :=
  ⟨Nat.zero_lt_one, bptree_refines_map numberKeys id numberKeys_order (numbered 1)
    Nat.zero_lt_one _⟩

end Bptree
