import DsAlgor.Bptree.Separators
import Mathlib.Data.List.TakeWhile

/-!
# Range queries

`bptreeQuery` walks along the chain of leaves, from `t->min` or from the place where a key belongs.
The place is recorded in a local variable `path` whose arrays nobody allocates: its pointers have
whatever value was on the stack. The parameter `path` is the memory they happen to point to, or
`none` where there is none, and then the query has no result. So a query is right, whatever is on
the stack, exactly when it has no lower bound (`query_right_iff`).
-/

namespace Bptree

open CArray

variable {K V α : Type}

section
variable [DecidableEq K] (type : KeyType K V) (t : Tree K V) (fin : Option K) (len : BitVec 64)

/-- The test against `end`. -/
def pastEnd (e : Ptr) : Bool :=
  match fin with
  | some k => 0 ≥ type.compareKeys k (t.key e)
  | none => false

/-- `output[count] = e`, where there is an array and room in it; `none` where the function
returns. -/
def store (output : Option (Nat → Ptr)) (count : BitVec 64) (e : Ptr) :
    Option (Option (Nat → Ptr)) :=
  match output with
  | some out => if count < len then some (some (Function.update out count.toNat e)) else none
  | none => some none

/-- The loop over the entries of a leaf, with `r` of them to come: whether the function returns,
`count` and `output`. -/
def queryLeaf (entries : Nat → Ptr) : Nat → Nat → BitVec 64 → Option (Nat → Ptr) →
    Bool × BitVec 64 × Option (Nat → Ptr)
  | 0, _, count, output => (false, count, output)
  | r + 1, pos, count, output =>
    if pastEnd type t fin (entries pos) then (true, count, output)
    else
      match store len output count (entries pos) with
      | some output => queryLeaf entries r (pos + 1) (count + 1) output
      | none => (true, count, output)

/-- The loop over the leaves, with `r` rounds left. -/
def queryLoop : Nat → Ptr → Nat → BitVec 64 → Option (Nat → Ptr) → Option
    (BitVec 64 × Option (Nat → Ptr))
  | 0, _, _, _, _ => none
  | r + 1, node, pos, count, output =>
    if node = 0 then some (count, output)
    else
      let n := t.node node
      match queryLeaf type t fin len n.entries (n.count - pos) pos count output with
      | (true, count, output) => some (count, output)
      | (false, count, output) => queryLoop r n.next 0 count output

/-- `bptreeQuery`: the count, and the array `output` where there is one. -/
def bptreeQuery (r : Nat) (path : Option PathInfo) (output : Option (Nat → Ptr))
    (lower : Option K) :
    Option (BitVec 64 × Option (Nat → Ptr)) :=
  match lower with
  | none => queryLoop type t fin len r t.min 0 0 output
  | some key => do
    let path ← path
    let (_, path) ← bptreeFindEntry type t key path
    queryLoop type t fin len r (path.n 0) (path.p 0) 0 output

end

open PtrTree

/-! ## The chain of leaves -/

/-- The leaves on the chain from `p` on, with their entries. -/
structure Linked (t : Tree K V) (p : Ptr) (ls : List (Ptr × List Ptr)) : Prop where
  chain : Chain (fun q => (t.node q).next) p (ls.map Prod.fst) 0
  entries : ∀ x ∈ ls, Entries (t.node x.1) x.2
  pos : ∀ x ∈ ls, x.1 ≠ 0

/-- All the leaves. -/
structure Leaves (t : Tree K V) (ls : List (Ptr × List Ptr)) : Prop extends Linked t t.min ls where
  most : ∀ x ∈ ls, x.2.length ≤ 63
  least : ls.length ≠ 1 → ∀ x ∈ ls, 32 ≤ x.2.length

section
variable {t : Tree K V} {root : Bool} {l L : Nat} {T : Shape} {p : Ptr} {x : Ptr × List Ptr}
  {ls : List (Ptr × List Ptr)} {es : List Ptr}

theorem Linked.cons (h : Linked t p (x :: ls)) : p = x.1 ∧ Linked t (t.node x.1).next ls :=
  ⟨h.chain.1, h.chain.2, fun y hy => h.entries y (List.mem_cons_of_mem _ hy), fun y hy =>
    h.pos y (List.mem_cons_of_mem _ hy)⟩

theorem Sub.leaf_sizes (h : Sub t root l T) :
    ∀ x ∈ T.leaves, x.2.length ≤ 63 ∧ (root = false ∨ 0 < l → 32 ≤ x.2.length) := by
  induction l generalizing T root with
  | zero =>
    cases T with
    | node p cs => exact h.elim
    | leaf p es =>
      intro x hx
      rw [leaves_leaf, List.mem_singleton] at hx
      rw [hx]
      refine ⟨LeafOk.most h, fun hroot => ?_⟩
      have hleast := LeafOk.least h
      rw [hroot.resolve_right (lt_irrefl 0)] at hleast
      exact hleast
  | succ l ih =>
    cases T with
    | leaf p es => exact h.elim
    | node p cs =>
      intro x hx
      rw [leaves_node] at hx
      obtain ⟨c, hc, hx⟩ := List.mem_flatMap.1 hx
      obtain ⟨hmost, hleast⟩ := ih (h.2 c hc) x hx
      exact ⟨hmost, fun _ => hleast (.inl rfl)⟩

theorem Built.leaves (h : Built t L T) : Leaves t T.leaves := by
  refine ⟨⟨h.chain, h.sub.entries, fun x hx => ?_⟩, fun x hx => (h.sub.leaf_sizes x hx).1,
    fun hone x hx => ?_⟩
  · exact Nat.ne_of_gt (h.bound _ ((leaves_sublist T).subset (List.mem_map_of_mem hx))).1
  · refine (h.sub.leaf_sizes x hx).2 (.inr ?_)
    cases L with
    | succ L => exact Nat.succ_pos L
    | zero =>
      have hsub := h.sub
      cases T with
      | node p cs => exact hsub.elim
      | leaf p es =>
        rw [leaves_leaf] at hone
        exact absurd rfl hone

theorem Stands.leaves [LinearOrder α] {rank : K → α} (h : Stands rank t es) :
    ∃ ls, Leaves t ls ∧ ls.flatMap Prod.snd = es := by
  cases h with
  | empty _ min =>
    exact ⟨[], ⟨⟨min, fun x hx => (nomatch hx), fun x hx => (nomatch hx)⟩, fun x hx => (nomatch hx),
      fun _ x hx => (nomatch hx)⟩, rfl⟩
  | @tree L T h => exact ⟨T.leaves, h.toBuilt.leaves, rfl⟩

end

/-! ## The loops as one loop over a list -/

/-- The loop over a list of entries. -/
def queryList [DecidableEq K] (type : KeyType K V) (t : Tree K V) (fin : Option K)
    (len : BitVec 64) :
    List Ptr → BitVec 64 → Option (Nat → Ptr) → Bool × BitVec 64 × Option (Nat → Ptr)
  | [], count, output => (false, count, output)
  | e :: es, count, output =>
    if pastEnd type t fin e then (true, count, output)
    else
      match store len output count e with
      | some output => queryList type t fin len es (count + 1) output
      | none => (true, count, output)

section
variable [DecidableEq K] {type : KeyType K V} {t : Tree K V} {fin : Option K}
  {len count : BitVec 64} {output : Option (Nat → Ptr)} {es fs : List Ptr} {p : Ptr} {ls :
  List (Ptr × List Ptr)} {r : Nat}

theorem queryLeaf_eq {entries : Nat → Ptr} (h : Rep entries (fs ++ es)) :
    queryLeaf type t fin len entries es.length fs.length count output = queryList type t fin len es
      count output := by
  induction es generalizing fs count output with
  | nil => rfl
  | cons e es ih =>
    have he : entries fs.length = e := h.get (by simp)
    have hrec : ∀ count output, queryLeaf type t fin len entries es.length (fs.length + 1)
      count output = queryList type t fin len es count output := by
      intro count output
      have hrep : Rep entries ((fs ++ [e]) ++ es) := by simpa using h
      rw [← ih hrep, List.length_append, List.length_singleton]
    rw [List.length_cons, queryLeaf, queryList, he]
    simp only [hrec]

theorem queryList_append :
    queryList type t fin len (fs ++ es) count output =
      match queryList type t fin len fs count output with
      | (true, count, output) => (true, count, output)
      | (false, count, output) => queryList type t fin len es count output := by
  induction fs generalizing count output with
  | nil => rfl
  | cons e fs ih =>
    rw [List.cons_append, queryList, queryList]
    split_ifs
    · rfl
    · cases store len output count e with
      | none => rfl
      | some output' => exact ih

theorem queryLoop_eq (h : Linked t p ls) (hr : ls.length < r) :
    queryLoop type t fin len r p 0 count output =
      some (queryList type t fin len (ls.flatMap Prod.snd) count output).2 := by
  induction ls generalizing p r count output with
  | nil =>
    obtain ⟨r, rfl⟩ := Nat.exists_eq_succ_of_ne_zero (Nat.ne_zero_of_lt hr)
    have hp : p = 0 := h.chain
    rw [queryLoop, if_pos hp]
    rfl
  | cons x ls ih =>
    obtain ⟨r, rfl⟩ := Nat.exists_eq_succ_of_ne_zero (Nat.ne_zero_of_lt hr)
    obtain ⟨rfl, hls⟩ := h.cons
    have hx := h.entries x List.mem_cons_self
    have hleaf : queryLeaf type t fin len (t.node x.1).entries x.2.length 0 count output =
        queryList type t fin len x.2 count output :=
        queryLeaf_eq (show Rep _ ([] ++ x.2) from hx.entry)
    rw [queryLoop, if_neg (h.pos x List.mem_cons_self)]
    dsimp only
    rw [Nat.sub_zero, hx.count, hleaf, List.flatMap_cons, queryList_append]
    generalize queryList type t fin len x.2 count output = res
    obtain ⟨b, count', output'⟩ := res
    cases b with
    | true => rfl
    | false => exact ih hls (Nat.lt_of_succ_lt_succ hr)

/-- Without an array the entries before the end are counted. -/
theorem queryList_none :
    (queryList type t fin len es count none).2 =
      (count + BitVec.ofNat 64 (es.takeWhile fun e => !pastEnd type t fin e).length, none) := by
  induction es generalizing count with
  | nil =>
    rw [queryList, List.takeWhile_nil, List.length_nil]
    exact congrArg (·, none) (BitVec.add_zero count).symm
  | cons e es ih =>
    rw [queryList]
    cases hend : pastEnd type t fin e with
    | true =>
      rw [if_pos rfl, List.takeWhile_cons_of_neg (by simp [hend]), List.length_nil]
      exact congrArg (·, none) (BitVec.add_zero count).symm
    | false =>
      rw [if_neg (by simp), List.takeWhile_cons_of_pos (by simp [hend]), List.length_cons]
      show (queryList type t fin len es (count + 1) none).2 = _
      rw [ih, BitVec.ofNat_add, BitVec.add_assoc, BitVec.add_comm (BitVec.ofNat 64 _)
        (BitVec.ofNat 64 1)]
      rfl

/-- What is in the array after the entries `xs` have been written from position `k` on. -/
def Written (out out' : Nat → Ptr) (k : Nat) (xs : List Ptr) : Prop :=
  ∀ i, out' i = if k ≤ i then (xs[i - k]?).getD (out i) else out i

/-- With an array the first of them are written, as long as there is room. -/
theorem queryList_some {out : Nat → Ptr} {k : Nat} (hk : k ≤ len.toNat) :
    ∃ out', (queryList type t fin len es (BitVec.ofNat 64 k) (some out)).2 =
        (BitVec.ofNat 64
        (k + ((es.takeWhile fun e => !pastEnd type t fin e).take (len.toNat - k)).length),
        some out') ∧
      Written out out' k ((es.takeWhile fun e => !pastEnd type t fin e).take (len.toNat - k)) := by
  have hlt := len.isLt
  have hnat : (BitVec.ofNat 64 k).toNat = k := by
    rw [BitVec.toNat_ofNat]
    exact Nat.mod_eq_of_lt (by omega)
  induction es generalizing k out with
  | nil =>
    refine ⟨out, ?_, fun i => ?_⟩
    · rw [queryList, List.takeWhile_nil, List.take_nil]
      rfl
    · rw [List.takeWhile_nil, List.take_nil, List.getElem?_nil]
      split_ifs
      · rfl
      · rfl
  | cons e es ih =>
    rw [queryList]
    cases hend : pastEnd type t fin e with
    | true =>
      refine ⟨out, ?_, fun i => ?_⟩
      · rw [if_pos rfl, List.takeWhile_cons_of_neg (by simp [hend]), List.take_nil]
        rfl
      · rw [List.takeWhile_cons_of_neg (by simp [hend]), List.take_nil, List.getElem?_nil]
        split_ifs
        · rfl
        · rfl
    | false =>
      rw [if_neg (by simp), List.takeWhile_cons_of_pos (by simp [hend])]
      by_cases hroom : k < len.toNat
      · have hstore : store len (some out) (BitVec.ofNat 64 k) e =
          some (some (Function.update out k e)) := by
          rw [store, hnat]
          refine if_pos ?_
          rw [BitVec.lt_def, hnat]
          exact hroom
        have hnat' : (BitVec.ofNat 64 (k + 1)).toNat = k + 1 := by
          rw [BitVec.toNat_ofNat]
          exact Nat.mod_eq_of_lt (by omega)
        obtain ⟨out', hrun, hwritten⟩ := @ih (Function.update out k e) (k + 1) hroom hnat'
        rw [hstore, show len.toNat - k = len.toNat - (k + 1) + 1 by omega, List.take_succ_cons]
        refine ⟨out', ?_, fun i => ?_⟩
        · show (queryList type t fin len es (BitVec.ofNat 64 k + 1)
            (some (Function.update out k e))).2 = _
          rw [show BitVec.ofNat 64 k + 1 = BitVec.ofNat 64 (k + 1) from (BitVec.ofNat_add k 1).symm,
            hrun, List.length_cons, Nat.add_right_comm, Nat.add_assoc]
        · rw [hwritten i]
          rcases Nat.lt_trichotomy i k with hi | rfl | hi
          · rw [if_neg (by omega), if_neg (by omega), Function.update_of_ne (by omega)]
          · rw [if_neg (by omega), if_pos le_rfl, Nat.sub_self, Function.update_self]
            rfl
          · rw [if_pos (by omega), if_pos (by omega), Function.update_of_ne (by omega),
              show i - k = i - (k + 1) + 1 by omega, List.getElem?_cons_succ]
      · have hstore : store len (some out) (BitVec.ofNat 64 k) e = none := by
          refine if_neg ?_
          rw [BitVec.lt_def, hnat]
          exact hroom
        rw [hstore, show len.toNat - k = 0 by omega, List.take_zero]
        refine ⟨out, rfl, fun i => ?_⟩
        rw [List.getElem?_nil]
        split_ifs
        · rfl
        · rfl

end

/-! ## Ranges -/

variable [LinearOrder α]

/-- The entries with `from <= key < end`. -/
def inRange (rank : K → α) (t : Tree K V) (lower fin : Option K) (es : List Ptr) : List Ptr :=
  es.filter fun e => (lower.all fun k => rank k ≤ rank (t.key e)) && fin.all fun k =>
    rank (t.key e) < rank k

/-- What a query returns that counts the entries, or writes the first of them. -/
def Answers (xs : List Ptr) (len : BitVec 64) (output : Option (Nat → Ptr))
    (result : Option (BitVec 64 × Option (Nat → Ptr))) :
    Prop :=
  match output with
  | none => result = some (BitVec.ofNat 64 xs.length, none)
  | some out => ∃ out', result = some (BitVec.ofNat 64 (xs.take len.toNat).length, some out') ∧
    Written out out' 0 (xs.take len.toNat)

/-- The query gets through, and it answers with the entries of the range. -/
def QueryRight [DecidableEq K] (type : KeyType K V) (rank : K → α) (t : Tree K V) (es : List Ptr)
    (path : Option PathInfo) (output : Option (Nat → Ptr)) (len : BitVec 64)
    (lower fin : Option K) : Prop :=
  ∃ s, ∀ r ≥ s, Answers (inRange rank t lower fin es) len output
    (bptreeQuery type t fin len r path output lower)

section
variable [DecidableEq K] {type : KeyType K V} {rank : K → α} {t : Tree K V} {lower fin : Option K}
  {len : BitVec 64} {output : Option (Nat → Ptr)} {es fs : List Ptr} {key : K}

theorem pastEnd_some (ho : KeyOrder type rank) (e : Ptr) :
    pastEnd type t (some key) e = true ↔ rank key ≤ rank (t.key e) := by
  have hlt := ho.lt key (t.key e)
  have heq := ho.eq key (t.key e)
  rw [pastEnd, decide_eq_true_iff, le_iff_lt_or_eq, ← hlt, ← heq]
  omega

/-- The end of the range cuts off the entries behind it. -/
theorem inRange_upper (ho : KeyOrder type rank) (hasc : Ascending rank t es) :
    inRange rank t none fin es = es.takeWhile fun e => !pastEnd type t fin e := by
  unfold inRange
  cases fin with
  | none =>
    exact (List.filter_eq_self.2 fun _ _ => rfl).trans
      (List.takeWhile_eq_self_iff.2 fun _ _ => rfl).symm
  | some key =>
    induction es with
    | nil => rfl
    | cons e es ih =>
      obtain ⟨hle, hasc⟩ := List.pairwise_cons.1 hasc
      by_cases hend : rank key ≤ rank (t.key e)
      · rw [List.takeWhile_cons_of_neg (by simpa using (pastEnd_some ho e).2 hend)]
        apply List.filter_eq_nil_iff.2
        intro x hx
        have hx' : rank (t.key e) ≤ rank (t.key x) := by
          rcases List.mem_cons.1 hx with rfl | hx
          · exact le_rfl
          · exact (hle x hx).le
        simpa using hend.trans hx'
      · rw [List.takeWhile_cons_of_pos (by simpa using mt (pastEnd_some ho e).1 hend),
          List.filter_cons_of_pos (by simpa using hend), ih hasc]

theorem answers_queryList (ho : KeyOrder type rank) (hasc : Ascending rank t es) :
    Answers (inRange rank t none fin es) len output
      (some (queryList type t fin len es 0 output).2) := by
  rw [inRange_upper ho hasc]
  cases output with
  | none =>
    show some _ = some _
    rw [queryList_none]
    exact congrArg (fun c => some (c, none)) (BitVec.zero_add _)
  | some out =>
    obtain ⟨out', hrun, hwritten⟩ := @queryList_some _ _ _ type t fin len es out 0 (Nat.zero_le _)
    rw [Nat.zero_add] at hrun
    exact ⟨out', congrArg some hrun, hwritten⟩

/-- From the smallest entry on. -/
theorem Stands.query_min (ho : KeyOrder type rank) (h : Stands rank t es) (path : Option PathInfo) :
    QueryRight type rank t es path output len none fin := by
  obtain ⟨ls, hls, rfl⟩ := h.leaves
  refine ⟨ls.length + 1, fun r hr => ?_⟩
  rw [bptreeQuery, queryLoop_eq hls.toLinked hr]
  exact answers_queryList ho h.ascending

/-- **Range queries.** Whatever is on the stack, a query is right exactly when it has no lower
bound. -/
theorem query_right_iff (type : KeyType K V) (rank : K → α) (ho : KeyOrder type rank) (t : Tree K V)
    (es : List Ptr) (h : Stands rank t es) (output : Option (Nat → Ptr)) (len : BitVec 64)
    (lower fin : Option K) :
    (∀ path, QueryRight type rank t es path output len lower fin) ↔ lower = none := by
  constructor
  · intro hright
    cases lower with
    | none => rfl
    | some key =>
      obtain ⟨s, hs⟩ := hright none
      have := hs s le_rfl
      cases output with
      | none => exact nomatch (show none = some _ from this)
      | some out => exact nomatch this.choose_spec.1
  · rintro rfl path
    exact h.query_min ho path

end

/-- A tree with one entry. -/
theorem add_stands (key val : Nat) : ∃ c t es, bptreeAdd numberKeys
    (bptreeCreate (numbered 1)) key val = some (c, t) ∧ Stands id t es := by
  have hnew : Stands id (bptreeCreate (numbered 1)) [] := stands_create id Nat.zero_lt_one
  obtain ⟨c, t, es, m, hrun, -, hstands, -⟩ := hnew.add numberKeys_order
    (m := fun _ => none) (fun a e v => ⟨fun hno => (nomatch hno), fun he => (nomatch he.1)⟩) key val
  exact ⟨c, t, es, hrun, hstands⟩

theorem thousand_queried : ∃ t : Tree Nat Nat, Stands id t ((List.range 1000).map Nat.succ) ∧
    ∀ path, QueryRight numberKeys id t ((List.range 1000).map Nat.succ) path none 0 none
      (some 500) := by
  obtain ⟨t, hstands, -⟩ := numbers_stand (show 0 < 1000 by norm_num) (by norm_num)
  exact ⟨t, hstands, (query_right_iff numberKeys id numberKeys_order t _ hstands none 0 none
    (some 500)).2 rfl⟩

/-- A query from a key, where the stack holds no pointers to memory. -/
theorem query_from_undefined : ∃ c t es, bptreeAdd numberKeys
    (bptreeCreate (numbered 1)) 3 7 = some (c, t) ∧ Stands id t es ∧
    ¬ QueryRight numberKeys id t es none none 0 (some 3) none := by
  obtain ⟨c, t, es, hrun, hstands⟩ := add_stands 3 7
  refine ⟨c, t, es, hrun, hstands, fun ⟨s, hs⟩ => ?_⟩
  exact nomatch (show none = some _ from hs s le_rfl)

end Bptree
