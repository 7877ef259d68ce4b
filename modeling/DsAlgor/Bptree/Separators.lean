import DsAlgor.Bptree.BulkLevels
import DsAlgor.Bptree.Map

/-!
# Keys of inner nodes and balance

Every key of an inner node is that of the smallest entry below the child on its right, all leaves
are at level 0, and no node but the root is less than half full (`Balanced`). This holds in every
state that insertions and deletions lead to, from a new tree or from a bulk load of at most `2 ^ 32`
entries (`separators_of_small`). In a larger bulk load `index` wraps around, and the first entries
of the array are loaded once more behind the last ones.
-/

namespace Bptree

open CArray PtrTree

variable {K V α : Type}

/-- The entries below a node. -/
inductive Below (t : Tree K V) : Ptr → Ptr → Prop
  | leaf {p : Ptr} {i : Nat} (hp : (t.node p).leaf = true) (hi : i < (t.node p).count) :
      Below t p ((t.node p).entries i)
  | inner {p e : Ptr} {i : Nat} (hp : (t.node p).leaf = false) (hi : i ≤ (t.node p).count)
      (h : Below t ((t.node p).children i) e) : Below t p e

/-- The nodes below a node. -/
inductive Under (t : Tree K V) (p : Ptr) : Ptr → Prop
  | here : Under t p p
  | child {q : Ptr} {i : Nat} (h : Under t p q) (hq : (t.node q).leaf = false)
      (hi : i ≤ (t.node q).count) :
      Under t p ((t.node q).children i)

variable [LinearOrder α]

structure NodeRight (rank : K → α) (t : Tree K V) (q : Ptr) : Prop where
  leaf : (t.node q).leaf = true → (t.node q).level = 0
  level : (t.node q).leaf = false → ∀ i ≤ (t.node q).count, (t.node ((t.node q).children i)).level +
    1 = (t.node q).level
  entries : (t.node q).leaf = true → q ≠ t.root → 32 ≤ (t.node q).count ∧ (t.node q).count ≤ 63
  keys : (t.node q).leaf = false → q ≠ t.root → 15 ≤ (t.node q).count ∧ (t.node q).count ≤ 31
  separator : (t.node q).leaf = false → ∀ i < (t.node q).count, ∃ e,
    Below t ((t.node q).children (i + 1)) e ∧ (t.node q).keys i = t.key e ∧
    ∀ e', Below t ((t.node q).children (i + 1)) e' → rank (t.key e) ≤ rank (t.key e')

def Balanced (rank : K → α) (t : Tree K V) : Prop :=
  t.root ≠ 0 → ∀ q, Under t t.root q → NodeRight rank t q

/-- A new tree after a bulk load of `count` entries in ascending order. -/
structure BulkLoaded (rank : K → α) (mem : Tree K V) (e : Nat → Ptr) (count : Nat) (t : Tree K V) :
    Prop where
  pos : 0 < count
  stored : ∀ i < count, 0 < e i ∧ e i < mem.brk
  ascending : ∀ i j, i < j → j < count → rank (mem.key (e i)) < rank (mem.key (e j))
  loaded : ∃ r nextlevel, bptreeBulkLoad r (bptreeCreate mem) e count nextlevel = some t

/-- The operations, one after the other. -/
def runOps [DecidableEq K] (type : KeyType K V) : Tree K V → List (Op K V) → Option (Tree K V)
  | t, [] => some t
  | t, op :: ops => (op.step type t).bind fun (_, t') => runOps type t' ops

/-! ## Trees in the heap -/

section
variable {rank : K → α} {t : Tree K V} {root : Bool} {l L : Nat} {T : Shape} {p q e : Ptr}
  {cs : List Shape}

omit [LinearOrder α]

theorem InnerOk.child_eq (h : InnerOk (t.node p) root l (cs.map (item t))) {i : Nat}
    (hi : i ≤ (t.node p).count) :
    ∃ c, cs[i]? = some c ∧ (t.node p).children i = c.ptr := by
  have hcount := h.count
  rw [List.length_map] at hcount
  have hlt : i < cs.length := by omega
  refine ⟨cs[i], List.getElem?_eq_getElem hlt, h.child.get ?_⟩
  rw [List.map_map, List.getElem?_map, List.getElem?_eq_getElem hlt]
  rfl

theorem below_iff (h : Sub t root l T) : Below t T.ptr e ↔ e ∈ T.elems := by
  induction l generalizing T root with
  | zero =>
    cases T with
    | node p cs => exact h.elim
    | leaf p es =>
      have hleaf : (t.node p).leaf = true := LeafOk.leaf h
      have hentries := LeafOk.toEntries h
      rw [elems_leaf, ptr_leaf]
      constructor
      · intro hb
        cases hb with
        | leaf _ hi =>
          rw [hentries.count] at hi
          exact List.mem_of_getElem? (hentries.entry _ hi)
        | inner hp =>
          rw [hleaf] at hp
          cases hp
      · intro he
        obtain ⟨i, hi, hget⟩ := List.mem_iff_getElem.1 he
        have hread := hentries.entry.get (List.getElem?_eq_getElem hi)
        rw [← hget, ← hread]
        exact .leaf hleaf (by rw [hentries.count]; exact hi)
  | succ l ih =>
    cases T with
    | leaf p es => exact h.elim
    | node p cs =>
      obtain ⟨hnode, hcs⟩ := h
      rw [elems_node, ptr_node, List.mem_flatMap]
      constructor
      · intro hb
        cases hb with
        | leaf hp =>
          rw [hnode.leaf] at hp
          cases hp
        | inner _ hi hb =>
          obtain ⟨c, hc, hptr⟩ := hnode.child_eq hi
          have hmem := List.mem_of_getElem? hc
          rw [hptr] at hb
          exact ⟨c, hmem, (ih (hcs c hmem)).1 hb⟩
      · rintro ⟨c, hc, he⟩
        obtain ⟨i, hi, hget⟩ := List.mem_iff_getElem.1 hc
        have hcount := hnode.count
        rw [List.length_map] at hcount
        have hile : i ≤ (t.node p).count := by omega
        obtain ⟨c', hc', hptr⟩ := hnode.child_eq hile
        rw [List.getElem?_eq_getElem hi, hget] at hc'
        cases hc'
        refine .inner hnode.leaf hile ?_
        rw [hptr]
        exact (ih (hcs c hc)).2 he

/-- A node below the root is a tree of its own. -/
theorem under_sub (h : Sub t true L T) (hq : Under t T.ptr q) :
    ∃ S root' l', S.ptr = q ∧ Sub t root' l' S ∧ (root' = true → q = T.ptr) ∧
      S.elems.Sublist T.elems := by
  induction hq with
  | here => exact ⟨T, true, L, rfl, h, fun _ => rfl, List.Sublist.refl _⟩
  | @child q i _ hq hi ih =>
    obtain ⟨S, root', l', rfl, hS, -, hsublist⟩ := ih
    cases l' with
    | zero =>
      cases S with
      | node p cs => exact hS.elim
      | leaf p es =>
        rw [ptr_leaf, LeafOk.leaf hS] at hq
        cases hq
    | succ l' =>
      cases S with
      | leaf p es => exact hS.elim
      | node p cs =>
        obtain ⟨c, hc, hptr⟩ := hS.1.child_eq hi
        have hmem := List.mem_of_getElem? hc
        refine ⟨c, false, l', hptr.symm, hS.2 c hmem, fun hno => absurd hno (by simp), ?_⟩
        exact (elems_sublist_node hmem).trans hsublist

end

/-! ## Balance -/

section
variable {rank : K → α} {t : Tree K V} {root : Bool} {l L : Nat} {T S : Shape} {es : List Ptr}

/-- The first of the entries in ascending order has the smallest key. -/
theorem Ascending.headD_le (h : Ascending rank t es) {e : Ptr} (he : e ∈ es) :
    rank (t.key (es.headD 0)) ≤ rank (t.key e) := by
  cases es with
  | nil => cases he
  | cons x xs =>
    rcases List.mem_cons.1 he with rfl | he
    · exact le_rfl
    · exact le_of_lt ((List.pairwise_cons.1 h).1 e he)

theorem Sub.nodeRight (h : Sub t root l S) (hroot : root = true → S.ptr = t.root)
    (hasc : Ascending rank t S.elems) :
    NodeRight rank t S.ptr := by
  have hnotRoot : S.ptr ≠ t.root → root = false := by
    intro hne
    cases hr : root with
    | false => rfl
    | true => exact absurd (hroot hr) hne
  cases l with
  | zero =>
    cases S with
    | node p cs => exact h.elim
    | leaf p es =>
      have hok : LeafOk (t.node p) root es := h
      rw [ptr_leaf] at hnotRoot ⊢
      have hleaf : ¬ (t.node p).leaf = false := by
        rw [hok.leaf]
        exact Bool.noConfusion
      refine ⟨fun _ => hok.level, fun hno => absurd hno hleaf, fun _ hne => ?_, fun hno =>
        absurd hno hleaf, fun hno => absurd hno hleaf⟩
      have hleast := hok.least
      rw [hnotRoot hne] at hleast
      rw [hok.count]
      exact ⟨hleast, hok.most⟩
  | succ l =>
    cases S with
    | leaf p es => exact h.elim
    | node p cs =>
      obtain ⟨hok, hcs⟩ := h
      rw [ptr_node] at hnotRoot ⊢
      have hinner : ¬ (t.node p).leaf = true := by
        rw [hok.leaf]
        exact Bool.noConfusion
      refine ⟨fun hno => absurd hno hinner, fun _ i hi => ?_, fun hno => absurd hno hinner,
        fun _ hne => ?_, fun _ i hi => ?_⟩
      · obtain ⟨c, hc, hptr⟩ := hok.child_eq hi
        rw [hptr, (hcs c (List.mem_of_getElem? hc)).level, hok.level]
      · have hleast := hok.least
        have hmost := hok.most
        rw [hnotRoot hne] at hleast
        rw [← hok.count] at hleast hmost
        have : 16 ≤ (t.node p).count + 1 := hleast
        omega
      · obtain ⟨c, hc, hptr⟩ := hok.child_eq (Nat.succ_le_of_lt hi)
        have hmem := List.mem_of_getElem? hc
        have hsub := hcs c hmem
        have hkey : (t.node p).keys i = minKey t c := by
          apply hok.key.get
          rw [List.getElem?_map, List.getElem?_tail, List.getElem?_map, hc]
          rfl
        have hfirst : c.elems.headD 0 ∈ c.elems := by
          cases he : c.elems with
          | nil => exact absurd he hsub.elems_ne_nil
          | cons e es => exact List.mem_cons_self
        rw [hptr]
        refine ⟨c.elems.headD 0, (below_iff hsub).2 hfirst, hkey, fun e' he' => ?_⟩
        have hasc' : Ascending rank t c.elems := hasc.sublist (elems_sublist_node hmem)
        exact hasc'.headD_le ((below_iff hsub).1 he')

theorem Stands.balanced (h : Stands rank t es) : Balanced rank t := by
  intro hroot q hq
  cases h with
  | empty root => exact absurd root hroot
  | tree h =>
    rw [h.root] at hq
    obtain ⟨S, root', l', rfl, hS, htop, hsublist⟩ := under_sub h.sub hq
    exact hS.nodeRight (fun hr => (htop hr).trans h.root.symm) (h.ascending.sublist hsublist)

end

/-! ## Runs -/

section
variable {type : KeyType K V} {rank : K → α} {t : Tree K V} {es : List Ptr}

theorem Ascending.eq_of_rank (h : Ascending rank t es) {a b : Ptr} (ha : a ∈ es) (hb : b ∈ es)
    (hrank : rank (t.key a) = rank (t.key b)) : a = b := by
  by_contra hne
  obtain ⟨X, Y, rfl⟩ := List.append_of_mem hb
  have hother : a ∈ X ++ Y := by
    rw [List.mem_append, List.mem_cons] at ha
    rw [List.mem_append]
    exact ha.imp_right fun ha => ha.resolve_left hne
  exact h.ne hother hrank

/-- Entries in ascending order make a map. -/
theorem Ascending.entered (h : Ascending rank t es) : ∃ m, Entered rank t es m := by
  classical
  refine ⟨fun a => if ha : ∃ e ∈ es,
    rank (t.key e) = a then some (ha.choose, (t.entry ha.choose).val) else none, fun a e v => ?_⟩
  beta_reduce
  by_cases ha : ∃ e ∈ es, rank (t.key e) = a
  · obtain ⟨hmem, hrank⟩ := ha.choose_spec
    rw [dif_pos ha, Option.some.injEq, Prod.mk.injEq]
    constructor
    · rintro ⟨rfl, hval⟩
      exact ⟨hmem, hrank, hval⟩
    · rintro ⟨he, he', hval⟩
      have heq : ha.choose = e := h.eq_of_rank hmem he (hrank.trans he'.symm)
      exact ⟨heq, heq ▸ hval⟩
  · rw [dif_neg ha]
    refine ⟨fun hno => (nomatch hno), ?_⟩
    rintro ⟨he, hrank, -⟩
    exact absurd ⟨e, he, hrank⟩ ha

theorem Stands.run [DecidableEq K] (ho : KeyOrder type rank) (h : Stands rank t es)
    (ops : List (Op K V)) :
    ∃ t' es', runOps type t ops = some t' ∧ Stands rank t' es' := by
  induction ops generalizing t es with
  | nil => exact ⟨t, es, rfl, h⟩
  | cons op ops ih =>
    obtain ⟨m, hm⟩ := h.ascending.entered
    obtain ⟨r, t', es', m', hrun, -, hstands, -⟩ := h.step ho hm op
    rw [runOps, hrun]
    exact ih hstands

theorem Stands.run_balanced [DecidableEq K] (ho : KeyOrder type rank) (h : Stands rank t es)
    (ops : List (Op K V)) :
    ∃ t', runOps type t ops = some t' ∧ Balanced rank t' := by
  obtain ⟨t', es', hrun, hstands⟩ := h.run ho ops
  exact ⟨t', hrun, hstands.balanced⟩

end

/-! ## After a bulk load -/

section
variable {rank : K → α} {mem t : Tree K V} {e : Nat → Ptr} {count r s : Nat}
  {nextlevel : Nat → Ptr × K}

omit [LinearOrder α]

theorem bulkLevels_mono {x : Tree K V × (Nat → Ptr × K)} {parents : Nat}
    (h : bulkLevels r parents t nextlevel = some x) (hr : r ≤ s) :
    bulkLevels s parents t nextlevel = some x := by
  induction r generalizing s parents t nextlevel with
  | zero => cases h
  | succ r ih =>
    cases s with
    | zero => cases hr
    | succ s =>
      rw [bulkLevels] at h ⊢
      split_ifs at h ⊢ with hone
      · exact h
      · dsimp only at h ⊢
        split_ifs at h ⊢ with hzero
        exact ih h (Nat.le_of_succ_le_succ hr)

/-- More rounds than are needed change nothing. -/
theorem bptreeBulkLoad_mono {t' : Tree K V} (h : bptreeBulkLoad r t e count nextlevel = some t')
    (hr : r ≤ s) :
    bptreeBulkLoad s t e count nextlevel = some t' := by
  unfold bptreeBulkLoad at h ⊢
  dsimp only at h ⊢
  split_ifs at h ⊢ with hrest hone
  · exact h
  · obtain ⟨x, hx, ht'⟩ := Option.bind_eq_some_iff.1 h
    rw [bulkLevels_mono hx hr]
    exact ht'

/-- A bulk load of at most so many entries makes a tree of the entries as they are read. -/
theorem changed_of_bulkLoad {t' : Tree K V} (h : bptreeBulkLoad r t e count nextlevel = some t')
    (hio : t.innerOrder = 32) (hlo : t.leafOrder = 64) (hbrk : 0 < t.brk) (h0 : 0 < count)
    (hcount : count ≤ 63 * (2 ^ 32 - 1)) :
    ∃ L T, t'.count = BitVec.ofNat 64 count ∧ Changed t t' [] L T (readEntries e 0 count) := by
  obtain ⟨t'', L, T, hrun, hnum, hchanged⟩ :=
    bptreeBulkLoad_spec e nextlevel hio hlo hbrk h0 hcount (le_max_right r count)
  rw [bptreeBulkLoad_mono h (le_max_left r count), Option.some.injEq] at hrun
  rw [hrun]
  exact ⟨L, T, hnum, hchanged⟩

end

section
variable {rank : K → α} {mem t : Tree K V} {e : Nat → Ptr} {count : Nat}

/-- At most so many entries are read as they are in the array. -/
theorem readEntries_eq (hcount : count ≤ 2 ^ 32) :
    readEntries e 0 count = (List.range count).map e := by
  rw [List.range_eq_range', readEntries]
  refine List.map_congr_left fun j hj => ?_
  have hlt := (List.mem_range'_1.1 hj).2
  rw [Nat.mod_eq_of_lt (by omega)]

theorem Changed.load_holds {L : Nat} {T : Shape} (h : Changed mem t [] L T (readEntries e 0 count))
    (hcount : count ≤ 2 ^ 32) (hstored : ∀ i < count, 0 < e i ∧ e i < mem.brk)
    (hasc : ∀ i j, i < j → j < count → rank (mem.key (e i)) < rank (mem.key (e j))) :
    Holds rank t L T := by
  have hread : T.elems = (List.range count).map e := h.elems.trans (readEntries_eq hcount)
  have hkey : t.key = mem.key := by
    funext x
    show (t.entry x).key = (mem.entry x).key
    rw [h.entry]
  refine ⟨h.toBuilt, fun x hx => ?_, ?_⟩
  · rw [hread] at hx
    obtain ⟨j, hj, rfl⟩ := List.mem_map.1 hx
    exact (hstored j (List.mem_range.1 hj)).imp_right fun hlt => hlt.trans_le h.brk
  · unfold Ascending
    rw [hread, hkey, List.pairwise_map]
    refine List.Pairwise.imp_of_mem ?_ List.pairwise_lt_range
    intro i j _ hj hij
    exact hasc i j hij (List.mem_range.1 hj)

theorem BulkLoaded.stands (h : BulkLoaded rank mem e count t) (hmem : 0 < mem.brk)
    (hcount : count ≤ 2 ^ 32) :
    ∃ es, Stands rank t es := by
  obtain ⟨r, nextlevel, hload⟩ := h.loaded
  obtain ⟨L, T, -, hchanged⟩ := changed_of_bulkLoad hload rfl rfl hmem h.pos (by omega)
  exact ⟨T.elems, .tree (hchanged.load_holds hcount h.stored h.ascending)⟩

/-- **Keys and balance** in every run on a new tree, or on one loaded with at most `2 ^ 32`
entries. -/
theorem separators_of_small [DecidableEq K] (type : KeyType K V) (rank : K → α)
    (ho : KeyOrder type rank) (mem : Tree K V) (hmem : 0 < mem.brk) (t : Tree K V)
    (ht : t = bptreeCreate mem ∨ ∃ e count, BulkLoaded rank mem e count t ∧ count ≤ 2 ^ 32)
    (ops : List (Op K V)) :
    ∃ t', runOps type t ops = some t' ∧ Balanced rank t' := by
  rcases ht with rfl | ⟨e, count, hload, hcount⟩
  · exact (stands_create rank hmem).run_balanced ho ops
  · obtain ⟨es, hstands⟩ := hload.stands hmem hcount
    exact hstands.run_balanced ho ops

end

/-- The numbers from `1` to `count`, loaded in this order. -/
theorem numbers_loaded {count : Nat} (h0 : 0 < count) (hcount : count ≤ 63 * (2 ^ 32 - 1)) :
    ∃ t, BulkLoaded id (numbered (count + 1)) (fun i => i + 1) count t := by
  obtain ⟨t, L, T, hload, -, -⟩ := bptreeBulkLoad_spec (t := bptreeCreate (numbered (count + 1)))
    (fun i => i + 1) (fun _ => (0, 0)) rfl rfl (Nat.succ_pos count) h0 hcount le_rfl
  exact ⟨t, h0, fun i hi => ⟨Nat.succ_pos i, Nat.succ_lt_succ hi⟩, fun i j hij _ =>
    Nat.succ_lt_succ hij, count, _, hload⟩

/-- A tree of the numbers up to `count`. -/
theorem numbers_stand {count : Nat} (h0 : 0 < count) (hcount : count ≤ 2 ^ 32) :
    ∃ t : Tree Nat Nat, Stands id t ((List.range count).map Nat.succ) ∧ t.count.toNat = count ∧
      ∀ e, t.key e = e := by
  obtain ⟨t, L, T, -, hnum, hchanged⟩ :=
    bptreeBulkLoad_spec (t := bptreeCreate (numbered (count + 1))) Nat.succ (fun _ => (0, 0)) rfl
      rfl (Nat.succ_pos count) h0 (by omega) le_rfl
  have hholds : Holds id t L T :=
    hchanged.load_holds hcount (fun i hi => ⟨Nat.succ_pos i, Nat.succ_lt_succ hi⟩) fun i j hij _ =>
      Nat.succ_lt_succ hij
  refine ⟨t, ?_, ?_, fun e => ?_⟩
  · rw [← readEntries_eq hcount, ← hchanged.elems]
    exact .tree hholds
  · rw [hnum, BitVec.toNat_ofNat]
    exact Nat.mod_eq_of_lt (by omega)
  · show (t.entry e).key = e
    rw [hchanged.entry]
    rfl

theorem numbers_separators : ∃ t t', BulkLoaded id (numbered 101) (fun i => i + 1) 100 t ∧
    runOps numberKeys t [.add 300 7, .delete 3] = some t' ∧ Balanced id t' := by
  obtain ⟨t, hload⟩ := numbers_loaded (show 0 < 100 by norm_num) (by norm_num)
  obtain ⟨t', hrun⟩ := separators_of_small numberKeys id numberKeys_order (numbered 101)
    (Nat.succ_pos 100) t (.inr ⟨_, 100, hload, by norm_num⟩) [.add 300 7, .delete 3]
  exact ⟨t, t', hload, hrun⟩

/-! ## Too many entries -/

section
variable {rank : K → α} {t : Tree K V} {root : Bool} {l L : Nat} {T : Shape}

omit [LinearOrder α] in
theorem Sub.two_le (h : Sub t false l T) : 2 ≤ T.elems.length := by
  induction l generalizing T with
  | zero =>
    cases T with
    | node p cs => exact h.elim
    | leaf p es =>
      have hleast : 32 ≤ es.length := LeafOk.least h
      rw [elems_leaf]
      omega
  | succ l ih =>
    cases T with
    | leaf p es => exact h.elim
    | node p cs =>
      cases cs with
      | nil =>
        have := h.1.least
        cases this
      | cons c cs =>
        exact (ih (h.2 c List.mem_cons_self)).trans
          (elems_sublist_node List.mem_cons_self).length_le

omit [LinearOrder α] in
/-- The last child of the root of a large tree. -/
theorem Sub.last_child (h : Sub t true L T) (hlen : 63 < T.elems.length) :
    ∃ p A d x ws z, T = .node p (A ++ [d]) ∧ A ≠ [] ∧ d.elems = x :: (ws ++ [z]) ∧
      A.flatMap elems ≠ [] := by
  cases L with
  | zero =>
    cases T with
    | node p cs => exact h.elim
    | leaf p es =>
      have hmost : es.length ≤ 63 := LeafOk.most h
      rw [elems_leaf] at hlen
      omega
  | succ l =>
    cases T with
    | leaf p es => exact h.elim
    | node p cs =>
      obtain ⟨hok, hcs⟩ := h
      have hleast : 2 ≤ (cs.map (item t)).length := hok.least
      rw [List.length_map] at hleast
      rcases List.eq_nil_or_concat' cs with rfl | ⟨A, d, rfl⟩
      · cases hleast
      cases A with
      | nil => exact absurd hleast (by simp)
      | cons a A =>
        have hd := (hcs d (List.mem_append_right _ List.mem_cons_self)).two_le
        have ha := (hcs a (List.mem_append_left _ List.mem_cons_self)).elems_ne_nil
        have hA : (a :: A).flatMap elems ≠ [] := by
          rw [List.flatMap_cons]
          exact fun hnil => ha (List.append_eq_nil_iff.1 hnil).1
        cases hde : d.elems with
        | nil =>
          rw [hde] at hd
          cases hd
        | cons x zs =>
          rcases List.eq_nil_or_concat' zs with rfl | ⟨ws, z, rfl⟩
          · rw [hde] at hd
            exact absurd hd (by simp)
          · exact ⟨p, a :: A, d, x, ws, z, rfl, List.cons_ne_nil _ _, hde, hA⟩

/-- Where the keys are right, the first entry of the last child of the root is its smallest. -/
theorem Balanced.last {p : Ptr} {A : List Shape} {d : Shape} (h : Balanced rank t)
    (hroot : t.root = p) (h0 : p ≠ 0) (hsub : Sub t true L (.node p (A ++ [d]))) (hA : A ≠ [])
    {e : Ptr} (he : e ∈ d.elems) :
    rank (minKey t d) ≤ rank (t.key e) := by
  cases L with
  | zero => exact hsub.elim
  | succ l =>
    obtain ⟨hok, hcs⟩ := hsub
    have hcount := hok.count
    rw [List.length_map, List.length_append, List.length_singleton] at hcount
    have hlen : 0 < A.length := List.length_pos_of_ne_nil hA
    have hsep := (h (by rw [hroot]; exact h0) t.root .here).separator
    rw [hroot] at hsep
    obtain ⟨x, -, hkey, hmin⟩ := hsep hok.leaf (A.length - 1) (by omega)
    obtain ⟨c, hc, hptr⟩ := hok.child_eq (show A.length - 1 + 1 ≤ (t.node p).count by omega)
    rw [Nat.sub_add_cancel hlen] at hc hptr hmin
    obtain rfl : d = c := by
      rw [List.getElem?_append_right le_rfl, Nat.sub_self] at hc
      exact Option.some.inj hc
    have hread : (t.node p).keys (A.length - 1) = minKey t d := by
      apply hok.key.get
      rw [List.getElem?_map, List.getElem?_tail, Nat.sub_add_cancel hlen, List.getElem?_map,
        List.getElem?_append_right le_rfl, Nat.sub_self]
      rfl
    rw [← hread, hkey]
    apply hmin
    rw [hptr]
    exact (below_iff (hcs d (List.mem_append_right _ List.mem_cons_self))).2 he

end

/-- With one entry too many the first entry of the array comes once more at the end. -/
theorem wrapped_not_balanced {t : Tree Nat Nat}
    (h : BulkLoaded id (numbered (2 ^ 32 + 2)) (fun i => i + 1) (2 ^ 32 + 1) t) :
    ¬ Balanced id t := by
  intro hbal
  obtain ⟨r, nextlevel, hload⟩ := h.loaded
  obtain ⟨L, T, -, hchanged⟩ :=
    changed_of_bulkLoad hload rfl rfl (Nat.succ_pos _) h.pos (by norm_num)
  have hkey : ∀ x, t.key x = x := by
    intro x
    show (t.entry x).key = x
    rw [hchanged.entry]
    rfl
  have helems : T.elems = readEntries (fun i => i + 1) 0 (2 ^ 32) ++ [1] := by
    rw [hchanged.elems, readEntries_add]
    rfl
  have hlen : T.elems.length = 2 ^ 32 + 1 := by
    rw [hchanged.elems, readEntries, List.length_map, List.length_range']
  obtain ⟨p, A, d, x, ws, z, rfl, hA, hd, hne⟩ := hchanged.sub.last_child (by rw [hlen]; norm_num)
  have hle := hbal.last hchanged.root (Nat.ne_of_gt (hchanged.bound _ (ptr_mem_ptrs _)).1)
    hchanged.sub hA (show z ∈ d.elems by rw [hd]; simp)
  rw [elems_node, List.flatMap_append, List.flatMap_singleton,
    hd, ← List.cons_append, ← List.append_assoc] at helems
  obtain ⟨hinit, hlast⟩ := List.append_inj' helems rfl
  rw [List.singleton_inj] at hlast
  rw [minKey, hd, List.headD_cons, hkey, hkey, hlast] at hle
  -- the first entry of the last child is not the first of all
  have hx : (readEntries (fun i => i + 1) 0 (2 ^ 32))[(A.flatMap elems).length]? = some x := by
    rw [← hinit, List.getElem?_append_right le_rfl, Nat.sub_self]
    rfl
  have hpos := List.length_pos_of_ne_nil hne
  generalize (A.flatMap elems).length = i at hpos hx
  rw [readEntries, List.getElem?_map] at hx
  obtain ⟨j, hj, hjx⟩ := Option.map_eq_some_iff.1 hx
  have hi : i < 2 ^ 32 := by
    have := (List.getElem?_eq_some_iff.1 hj).1
    rwa [List.length_range'] at this
  rw [List.getElem?_range' hi] at hj
  have hij : 0 + 1 * i = j := Option.some.inj hj
  have hread : j % 2 ^ 32 + 1 ≤ 1 := by
    refine le_trans (le_of_eq ?_) hle
    exact hjx
  omega

/-- A bulk load of `2 ^ 32 + 1` entries in ascending order. -/
theorem separators_wrong : ∃ t, BulkLoaded id (numbered (2 ^ 32 + 2)) (fun i => i + 1)
    (2 ^ 32 + 1) t ∧ runOps numberKeys t [] = some t ∧ ¬ Balanced id t := by
  obtain ⟨t, hload⟩ := numbers_loaded (show 0 < 2 ^ 32 + 1 by norm_num) (by norm_num)
  exact ⟨t, hload, rfl, wrapped_not_balanced hload⟩

end Bptree
