import DsAlgor.Bptree.Separators

/-!
# A bulk load is right

A bulk load of entries in strictly ascending order gets through, the chain of leaves lists the
array, every entry is found, and the tree is balanced with no node over-full (`bulkLoad_right`). On
such a tree, and on every tree that the operations make of it or of a new one, `bptreeReplace` does
what it should to the map, and returns the opposite of what the comment on it says
(`replace_never_reports`).
-/

namespace Bptree

open CArray PtrTree

variable {K V α : Type}

/-- No leaf has more than `leafOrder - 1` entries, no inner node more than `innerOrder` children. -/
def Fits (t : Tree K V) : Prop :=
  ∀ q, Under t t.root q → ((t.node q).leaf = true → (t.node q).count ≤ t.leafOrder - 1) ∧
    ((t.node q).leaf = false → (t.node q).count + 1 ≤ t.innerOrder)

/-- Search finds the entries `es` and no others. -/
def Finds [DecidableEq K] (type : KeyType K V) (rank : K → α) (t : Tree K V) (es : List Ptr) :
    Prop :=
  (∀ e ∈ es, bptreeFind type t (some (t.key e)) = some e) ∧
    ∀ key, (∀ e ∈ es, rank (t.key e) ≠ rank key) → bptreeFind type t (some key) = some 0

/-- What a bulk load makes of the array. -/
structure LoadRight [DecidableEq K] [LinearOrder α] (type : KeyType K V) (rank : K → α)
    (e : Nat → Ptr) (count : Nat) (t : Tree K V) : Prop where
  lists : Lists t ((List.range count).map e)
  finds : Finds type rank t ((List.range count).map e)
  root : t.root ≠ 0
  balanced : Balanced rank t
  fits : Fits t

section
variable {t : Tree K V} {root : Bool} {l L : Nat} {T S : Shape}

theorem Sub.fits (h : Sub t root l S) : ((t.node S.ptr).leaf = true → (t.node S.ptr).count ≤ 63) ∧
    ((t.node S.ptr).leaf = false → (t.node S.ptr).count + 1 ≤ 32) := by
  cases l with
  | zero =>
    cases S with
    | node p cs => exact h.elim
    | leaf p es =>
      have hok : LeafOk (t.node p) root es := h
      rw [ptr_leaf, hok.leaf, hok.count]
      exact ⟨fun _ => hok.most, fun hno => (nomatch hno)⟩
  | succ l =>
    cases S with
    | leaf p es => exact h.elim
    | node p cs =>
      have hok := h.1
      rw [ptr_node, hok.leaf, hok.count]
      exact ⟨fun hno => (nomatch hno), fun _ => hok.most⟩

theorem Built.fits (h : Built t L T) : Fits t := by
  intro q hq
  rw [h.root] at hq
  obtain ⟨S, root', l', rfl, hS, -, -⟩ := under_sub h.sub hq
  rw [h.leafOrder, h.innerOrder]
  exact hS.fits

end

section
variable [DecidableEq K] [LinearOrder α] {type : KeyType K V} {rank : K → α} {t : Tree K V}
  {es : List Ptr}

theorem Stands.finds (ho : KeyOrder type rank) (h : Stands rank t es) : Finds type rank t es := by
  constructor
  · intro x hx
    obtain ⟨e, path, hrun, hfound, habsent⟩ := h.find ho (t.key x) t.path
    have he : e ≠ 0 := fun he => habsent he x hx rfl
    obtain ⟨hmem, hrank⟩ := hfound he
    rw [bptreeFind, hrun]
    exact congrArg some (h.ascending.eq_of_rank hmem hx hrank)
  · intro key hno
    obtain ⟨e, path, hrun, hfound, -⟩ := h.find ho key t.path
    have he : e = 0 := by
      by_contra he
      obtain ⟨hmem, hrank⟩ := hfound he
      exact hno e hmem hrank
    rw [bptreeFind, hrun, he]
    rfl

/-- **A bulk load** of fewer than `2 ^ 32` entries in strictly ascending order. -/
theorem bulkLoad_right (type : KeyType K V) (rank : K → α) (ho : KeyOrder type rank) (t : Tree K V)
    (hio : t.innerOrder = BPT_DEFAULT_ORDER) (hlo : t.leafOrder = BPT_DEFAULT_ORDER * 2)
    (hbrk : 0 < t.brk) (e : Nat → Ptr)
    (count : Nat) (nextlevel : Nat → Ptr × K) (h0 : 1 ≤ count) (hcount : count < 2 ^ 32)
    (hstored : ∀ i < count, 0 < e i ∧ e i < t.brk)
    (hasc : ∀ i j, i < j → j < count → rank (t.key (e i)) < rank (t.key (e j))) :
    ∃ t', (∀ r ≥ count, bptreeBulkLoad r t e count nextlevel = some t') ∧
      LoadRight type rank e count t' := by
  obtain ⟨t', L, T, hrun, -, hchanged⟩ :=
    bptreeBulkLoad_spec e nextlevel hio hlo hbrk h0 (by omega) le_rfl
  have hholds := hchanged.load_holds hcount.le hstored hasc
  have helems : T.elems = (List.range count).map e :=
    hchanged.elems.trans (readEntries_eq hcount.le)
  have hstands : Stands rank t' ((List.range count).map e) := by
    rw [← helems]
    exact .tree hholds
  refine ⟨t', fun r hr => bptreeBulkLoad_mono hrun hr, hstands.lists, hstands.finds ho, ?_,
    hstands.balanced, hchanged.toBuilt.fits⟩
  rw [hchanged.root]
  exact Nat.ne_of_gt (hchanged.bound _ (ptr_mem_ptrs T)).1

end

theorem hundred_loaded :
    ∃ t', (∀ r ≥ 100, bptreeBulkLoad r (bptreeCreate (numbered 101)) (fun i => i + 1) 100
      (fun _ => (0, 0)) = some t') ∧ LoadRight numberKeys id (fun i => i + 1) 100 t' :=
  bulkLoad_right numberKeys id numberKeys_order (bptreeCreate (numbered 101)) rfl rfl
    (Nat.succ_pos 100) (fun i => i + 1) 100 (fun _ => (0, 0)) (by norm_num) (by norm_num)
    (fun i hi => ⟨Nat.succ_pos i, Nat.succ_lt_succ hi⟩)
    fun i j hij _ => Nat.succ_lt_succ hij

/-! ## The code of a replacement -/

/-- The key `a` maps to the value, every other key to what it mapped to. -/
def Replaced [DecidableEq K] (type : KeyType K V) (a : α) (val : V) (m m' : α → Option (Ptr × V)) :
    Prop :=
  (∃ e brk, m' a = some (e, type.setVal brk val)) ∧ ∀ b, b ≠ a → m' b = m b

/-- A replacement returns `added` if the key was absent, `updated` if it was present. -/
def Reports [DecidableEq K] [LinearOrder α] (type : KeyType K V) (rank : K → α)
    (added updated : Int) (t : Tree K V) (key : K) (val : V) : Prop :=
  ∃ c t', bptreeReplace type t key val = some (c, t') ∧ ∀ m, Represents rank t m →
    (m (rank key) = none → c = added) ∧ (m (rank key) ≠ none → c = updated) ∧
      ∃ m', Represents rank t' m' ∧ Replaced type (rank key) val m m'

section
variable [DecidableEq K] [LinearOrder α] {type : KeyType K V} {rank : K → α} {t : Tree K V}
  {es es' : List Ptr} {m m' : α → Option (Ptr × V)} {key : K} {val : V}

omit [DecidableEq K] [LinearOrder α] in
theorem Lists.unique (h : Lists t es) (h' : Lists t es') : es = es' := by
  obtain ⟨ps, h0, hchain, rfl⟩ := h
  obtain ⟨qs, h0', hchain', rfl⟩ := h'
  rw [hchain.unique hchain' h0 h0']

omit [DecidableEq K] in
theorem Stands.entered (h : Stands rank t es) (hm : Represents rank t m) : Entered rank t es m := by
  obtain ⟨es', hlists, -, hentered⟩ := hm
  rw [h.lists.unique hlists]
  exact hentered

omit [LinearOrder α] in
theorem bptreeReplace_code {e : Ptr} {path : PathInfo} {c : Int} {t' : Tree K V}
    (hfind : bptreeFindEntry type t key t.path = some (e, path))
    (hrun : bptreeReplace type t key val = some (c, t')) :
    c = if e = 0 then 0 else 1 := by
  unfold bptreeReplace at hrun
  rw [hfind] at hrun
  dsimp only [bind, Option.bind] at hrun
  by_cases he : e = 0
  · rw [if_neg (not_not.2 he)] at hrun
    obtain ⟨x, -, hx⟩ := Option.bind_eq_some_iff.1 hrun
    rw [if_pos he]
    exact (congrArg Prod.fst (Option.some.inj hx)).symm
  · rw [if_pos he] at hrun
    rw [if_neg he]
    exact (congrArg Prod.fst (Option.some.inj hrun)).symm

theorem Op.Spec.replaced {r : Result} (h : (Op.replace key val).Spec type rank m r m') :
    Replaced type (rank key) val m m' := by
  obtain ⟨habsent, hpresent⟩ := h
  obtain ⟨e, brk, rfl⟩ : ∃ e brk, m' = Function.update m (rank key)
    (some (e, type.setVal brk val)) := by
    cases hm : m (rank key) with
    | none =>
      obtain ⟨e, brk, -, hm'⟩ := habsent hm
      exact ⟨e, brk, hm'⟩
    | some x =>
      obtain ⟨brk, hm'⟩ := hpresent x.1 x.2 hm
      exact ⟨x.1, brk, hm'⟩
  exact ⟨⟨e, brk, Function.update_self _ _ _⟩, fun b hb => Function.update_of_ne hb _ _⟩

/-- A replacement returns `0` where it adds the key and `1` where it was there. -/
theorem Stands.reports (ho : KeyOrder type rank) (h : Stands rank t es) (key : K) (val : V) :
    Reports type rank 0 1 t key val := by
  obtain ⟨m₀, hm₀⟩ := h.ascending.entered
  obtain ⟨c, t', -, -, hrun, -, -, -⟩ := h.replace ho hm₀ key val
  refine ⟨c, t', hrun, fun m hm => ?_⟩
  have hentered := h.entered hm
  obtain ⟨c', t'', es', m', hrun', hspec, hstands, hm'⟩ := h.replace ho hentered key val
  obtain ⟨e, path, hfind, hfound, habsent⟩ := h.lookup ho hentered key
  have hcode := bptreeReplace_code hfind hrun
  rw [hrun, Option.some.injEq, Prod.mk.injEq] at hrun'
  rw [hrun'.2]
  refine ⟨fun hnone => ?_, fun hsome => ?_, m', ⟨es', hstands.lists, hstands.ascending, hm'⟩,
    hspec.replaced⟩
  · rw [hcode]
    apply if_pos
    by_contra he
    rw [(hfound he).2.2] at hnone
    cases hnone
  · rw [hcode]
    apply if_neg
    intro he
    exact hsome (habsent he).2

/-- **A replacement** never returns what the comment says, in any state that the operations lead
to. -/
theorem replace_never_reports (type : KeyType K V) (rank : K → α) (ho : KeyOrder type rank)
    (mem : Tree K V) (hmem : 0 < mem.brk) (t : Tree K V)
    (ht : t = bptreeCreate mem ∨ ∃ e count, BulkLoaded rank mem e count t ∧ count ≤ 2 ^ 32)
    (ops : List (Op K V))
    (t' : Tree K V) (hrun : runOps type t ops = some t') (key : K) (val : V) :
    Reports type rank 0 1 t' key val ∧ ¬ Reports type rank 1 0 t' key val := by
  obtain ⟨es₀, hstands₀⟩ : ∃ es, Stands rank t es := by
    rcases ht with rfl | ⟨e, count, hload, hcount⟩
    · exact ⟨[], stands_create rank hmem⟩
    · exact hload.stands hmem hcount
  obtain ⟨t'', es, hrun', hstands⟩ := hstands₀.run ho ops
  obtain rfl : t' = t'' := Option.some.inj (hrun.symm.trans hrun')
  have hreports := hstands.reports ho key val
  refine ⟨hreports, ?_⟩
  rintro ⟨c', t₁, hreplace', hcode'⟩
  obtain ⟨c, t₂, hreplace, hcode⟩ := hreports
  obtain ⟨rfl, -⟩ := Prod.mk.inj (Option.some.inj (hreplace.symm.trans hreplace'))
  obtain ⟨m, hm⟩ := hstands.ascending.entered
  have hrep : Represents rank t' m := ⟨es, hstands.lists, hstands.ascending, hm⟩
  by_cases hnone : m (rank key) = none
  · exact absurd (((hcode m hrep).1 hnone).symm.trans ((hcode' m hrep).1 hnone)) (by norm_num)
  · exact absurd (((hcode m hrep).2.1 hnone).symm.trans ((hcode' m hrep).2.1 hnone)) (by norm_num)

end

/-- The key 5 is there, the key 3 is not. -/
theorem thousand_never_reports : ∃ t t', BulkLoaded id (numbered 1001) (fun i => i + 1) 1000 t ∧
    runOps numberKeys t [.add 3000 7, .delete 3] = some t' ∧
    (Reports numberKeys id 0 1 t' 5 7 ∧ ¬ Reports numberKeys id 1 0 t' 5 7) ∧
    Reports numberKeys id 0 1 t' 3 7 ∧ ¬ Reports numberKeys id 1 0 t' 3 7 := by
  obtain ⟨t, hload⟩ := numbers_loaded (show 0 < 1000 by norm_num) (by norm_num)
  obtain ⟨es, hstands⟩ := hload.stands (Nat.succ_pos 1000) (by norm_num)
  obtain ⟨t', -, hrun, -⟩ := hstands.run numberKeys_order [.add 3000 7, .delete 3]
  have hreports := replace_never_reports numberKeys id numberKeys_order (numbered 1001)
    (Nat.succ_pos 1000) t (.inr ⟨_, 1000, hload, by norm_num⟩) _ t' hrun
  exact ⟨t, t', hload, hrun, hreports 5 7, hreports 3 7⟩

/-- On a new tree the key is absent, and the code is `0`. -/
theorem added_reported_wrong : ¬ Reports numberKeys id 1 0 (bptreeCreate (numbered 1)) 3 7 := by
  rintro ⟨c, t', hrun, hcode⟩
  have hstands : Stands id (bptreeCreate (numbered 1)) [] := stands_create id Nat.zero_lt_one
  obtain ⟨c', t'', hrun', hcode'⟩ := hstands.reports numberKeys_order 3 7
  obtain ⟨rfl, -⟩ := Prod.mk.inj (Option.some.inj (hrun.symm.trans hrun'))
  have hrep : Represents id (bptreeCreate (numbered 1)) fun _ => none :=
    ⟨[], hstands.lists, hstands.ascending, fun a e v =>
      ⟨fun hno => (nomatch hno), fun he => (nomatch he.1)⟩⟩
  exact absurd (((hcode' _ hrep).1 rfl).symm.trans ((hcode _ hrep).1 rfl)) (by norm_num)

end Bptree
