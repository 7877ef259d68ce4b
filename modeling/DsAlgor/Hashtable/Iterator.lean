import DsAlgor.Hashtable.Runs

/-!
# Iterators of the hash table

`hashtable_itr.c`. A loop over the table that takes some of the entries out on its way comes to
every entry once (`visitAll_spec`).
-/

namespace Hashtable

open HashChains Circular
open Outcome (ok_bind)

/-- `struct hashtable_itr`, apart from the table. -/
structure Itr where
  e : Ptr
  parent : Ptr
  index : Nat

section
variable {K V : Type}

/-- The loop over the rows from `j` on. -/
def rowLoop (t : Table) : Nat → Nat → Except Fault Itr
  | 0, _ => .error .loop
  | fuel + 1, j => do
    let next ← cell t.table j
    if next ≠ 0 then return ⟨next, 0, j⟩
    else if j + 1 ≥ t.tablelength then return ⟨0, 0, t.tablelength⟩
    else rowLoop t fuel (j + 1)

/-- `hashtable_iterator`, where `malloc` succeeds. -/
def iterator (t : Table) : Except Fault Itr :=
  if t.entrycount = 0 ∨ t.tablelength = 0 then return ⟨0, 0, t.tablelength⟩
  else rowLoop t t.tablelength 0

/-- `hashtable_iterator_advance` -/
def advance (m : Memory K V) (t : Table) (itr : Itr) : Except Fault (Bool × Itr) :=
  if itr.e = 0 then return (false, itr)
  else do
    let next ← m.load m.next itr.e
    if next ≠ 0 then return (true, { itr with parent := itr.e, e := next })
    else
      let j := (itr.index + 1) % 2 ^ 32
      if t.tablelength ≤ j then return (false, ⟨0, 0, j⟩)
      else
        let itr ← rowLoop t t.tablelength j
        return (itr.e ≠ 0, itr)

/-- `hashtable_iterator_remove` -/
def iteratorRemove (m : Memory K V) (t : Table) (itr : Itr) :
    Except Fault (Bool × Memory K V × Table × Itr) := do
  let next ← m.load m.next itr.e
  let (m, table) ← storeSlot m t.table next
    (if itr.parent = 0 then .head itr.index else .next itr.parent)
  let t := { t with table := table, entrycount := (t.entrycount + 2 ^ 32 - 1) % 2 ^ 32 }
  let k ← m.load m.k itr.e
  let (ret, itr') ← advance m t itr
  let itr' := if itr'.parent = itr.e then { itr' with parent := itr.parent } else itr'
  return (ret, {
    m with
    freedKeys := m.freedKeys ++ [k]
    live := Function.update m.live itr.e false }, t, itr')

/-- The loop of `hashtable_iterator_search`: the entry and the one before it. -/
def searchItrLoop (fns : KeyFns K) (m : Memory K V) (k : K) : Nat → Ptr → Ptr →
    Except Fault (Option (Ptr × Ptr))
  | 0, _, _ => .error .loop
  | fuel + 1, e, parent =>
    if e ≠ 0 then do
      if hash fns k = (← m.load m.h e) ∧ fns.eqfn k (← m.load m.k e) then return some (e, parent)
      else searchItrLoop fns m k fuel (← m.load m.next e) e
    else return none

/-- `hashtable_iterator_search` -/
def iteratorSearch (fns : KeyFns K) (m : Memory K V) (t : Table) (itr : Itr) (k : K) :
    Except Fault (Bool × Itr) := do
  let index := indexFor t.tablelength (hash fns k)
  match ← searchItrLoop fns m k (m.brk + 1) (← cell t.table index) 0 with
  | some (e, parent) => return (true, ⟨e, parent, index⟩)
  | none => return (false, itr)

/-- One round of a loop: the entries that `drop` says are taken out. -/
def visit (drop : K → V → Bool) (m : Memory K V) (t : Table) (itr : Itr) (k : K) (v : V) :
    Except Fault (Bool × Memory K V × Table × Itr) :=
  if drop k v then iteratorRemove m t itr
  else do
    let (ret, itr) ← advance m t itr
    return (ret, m, t, itr)

/-- `do { … } while (ret)` -/
def visitLoop (drop : K → V → Bool) : Nat → Memory K V → Table → Itr →
    Except Fault (List (K × V) × Memory K V × Table)
  | 0, _, _, _ => .error .loop
  | fuel + 1, m, t, itr => do
    let k ← m.load m.k itr.e
    let v ← m.load m.v itr.e
    let (ret, m, t, itr) ← visit drop m t itr k v
    if ret then
      let (entries, s) ← visitLoop drop fuel m t itr
      return ((k, v) :: entries, s)
    else return ([(k, v)], m, t)

/-- A loop over the table. -/
def visitAll (drop : K → V → Bool) (m : Memory K V) (t : Table) :
    Except Fault (List (K × V) × Memory K V × Table) :=
  if t.entrycount > 0 then do visitLoop drop (m.brk + 1) m t (← iterator t) else return ([], m, t)

end

/-! ## Rows from a row on -/

section
variable {P : Type} {rows : Nat → List P} {n j : Nat}

def rowsFrom (n : Nat) (rows : Nat → List P) (j : Nat) : List P :=
  (List.range' j (n - j)).flatMap rows

theorem rowsFrom_step (hj : j < n) : rowsFrom n rows j = rows j ++ rowsFrom n rows (j + 1) := by
  unfold rowsFrom
  rw [show n - j = n - (j + 1) + 1 by omega, List.range'_succ, List.flatMap_cons]

theorem rowsFrom_end (hj : n ≤ j) : rowsFrom n rows j = [] := by
  unfold rowsFrom
  rw [Nat.sub_eq_zero_of_le hj]
  rfl

theorem rowsFrom_zero : rowsFrom n rows 0 = Buckets.rows n rows := by
  unfold rowsFrom Buckets.rows
  rw [Nat.sub_zero, List.range_eq_range']

theorem rowsFrom_congr {rows' : Nat → List P} (h : ∀ i ≥ j, rows' i = rows i) :
    rowsFrom n rows' j = rowsFrom n rows j := by
  unfold rowsFrom
  exact List.flatMap_congr fun i hi => h i (List.mem_range'_1.1 hi).1

end

/-! ## Positions -/

section
variable {K V : Type} {fns : KeyFns K} {loadLimit : Nat → Nat} {m : Memory K V} {t : Table}
  {rows : Nat → List Ptr} {nodes A B rest : List Ptr} {i j : Nat} {e : Ptr} {itr : Itr}

/-- The iterator is at an entry, and the entries `rest` come behind it. -/
structure At (t : Table) (rows : Nat → List Ptr) (itr : Itr) (A rest : List Ptr) : Prop where
  index : itr.index < t.tablelength
  row : ∃ B, rows itr.index = A ++ itr.e :: B ∧
    rest = B ++ rowsFrom t.tablelength rows (itr.index + 1)
  parent : itr.parent = lastOr 0 A

/-- What the loop over the rows finds: the first entry from row `j` on. -/
theorem rowLoop_spec (hzero : ∀ c < t.tablelength, 0 ∉ rows c) : ∀ {fuel j : Nat},
    (∀ c, j ≤ c → c < t.tablelength → cell t.table c = .ok (headOr 0 (rows c))) →
    j < t.tablelength → t.tablelength ≤ fuel + j →
    (rowsFrom t.tablelength rows j = [] ∧ rowLoop t fuel j = .ok ⟨0, 0, t.tablelength⟩) ∨
    ∃ rest itr, rowsFrom t.tablelength rows j = itr.e :: rest ∧ rowLoop t fuel j = .ok itr ∧
      At t rows itr [] rest
  | 0, j, _, _, hf => by omega
  | fuel + 1, j, hcell, hj, hf => by
    unfold rowLoop
    rw [hcell j le_rfl hj, ok_bind, rowsFrom_step hj]
    cases hrow : rows j with
    | cons x B =>
      have hx : x ≠ 0 := fun hx => hzero j hj (by rw [hrow, hx]; exact List.mem_cons_self)
      rw [headOr_cons, if_pos hx]
      exact .inr ⟨_, ⟨x, 0, j⟩, rfl, rfl, hj, ⟨B, hrow, rfl⟩, rfl⟩
    | nil =>
      rw [headOr_nil, if_neg (not_not.2 rfl), List.nil_append]
      by_cases hlast : j + 1 ≥ t.tablelength
      · rw [if_pos hlast, rowsFrom_end hlast]
        exact .inl ⟨rfl, rfl⟩
      · rw [if_neg hlast]
        exact rowLoop_spec hzero (fun c hc => hcell c (by omega)) (by omega) (by omega)

/-- What `advance` needs of the table and of the entry that the iterator is at. -/
structure Walkable (m : Memory K V) (t : Table) (rows : Nat → List Ptr) (itr : Itr)
    (B : List Ptr) : Prop where
  index : itr.index < t.tablelength
  word : t.tablelength < 2 ^ 32
  live : m.live itr.e = true
  ne_zero : itr.e ≠ 0
  next : m.next itr.e = headOr 0 B
  cells : ∀ c, itr.index < c → c < t.tablelength → cell t.table c = .ok (headOr 0 (rows c))
  null : ∀ c < t.tablelength, 0 ∉ rows c
  behind : 0 ∉ B

/-- **`hashtable_iterator_advance`** goes to the next entry of the row, or to the first one of the
next row that has any. -/
theorem Walkable.advance (W : Walkable m t rows itr B) :
    (∃ x B', B = x :: B' ∧ advance m t itr = .ok (true, ⟨x, itr.e, itr.index⟩)) ∨
    (B = [] ∧ ∃ rest itr', rowsFrom t.tablelength rows (itr.index + 1) = itr'.e :: rest ∧
      advance m t itr = .ok (true, itr') ∧ At t rows itr' [] rest) ∨
    (B = [] ∧ rowsFrom t.tablelength rows (itr.index + 1) = [] ∧
      ∃ c, advance m t itr = .ok (false, ⟨0, 0, c⟩)) := by
  unfold Hashtable.advance
  rw [if_neg W.ne_zero, Memory.load_ok W.live, ok_bind, W.next]
  cases B with
  | cons x B' =>
    have hx : x ≠ 0 := fun hx => W.behind (by rw [hx]; exact List.mem_cons_self)
    rw [headOr_cons, if_pos hx]
    exact .inl ⟨x, B', rfl, rfl⟩
  | nil =>
    right
    have hindex : (itr.index + 1) % 2 ^ 32 = itr.index + 1 :=
      Nat.mod_eq_of_lt (Nat.lt_of_le_of_lt W.index W.word)
    rw [headOr_nil, if_neg (not_not.2 rfl), hindex]
    dsimp only
    by_cases hlast : t.tablelength ≤ itr.index + 1
    · rw [if_pos hlast]
      exact .inr ⟨rfl, rowsFrom_end hlast, _, rfl⟩
    · rw [if_neg hlast]
      rcases rowLoop_spec W.null (fun c hc => W.cells c hc) (Nat.lt_of_not_le hlast)
        (Nat.le_add_right t.tablelength _) with ⟨hnil, hloop⟩ | ⟨rest, itr', hrest, hloop, hat⟩
      · exact .inr ⟨rfl, hnil, _, by rw [hloop]; rfl⟩
      · obtain ⟨B', hrow, -⟩ := hat.row
        have hx : itr'.e ≠ 0 := fun hx => W.null _ hat.index (by rw [hrow, hx]; simp)
        refine .inl ⟨rfl, rest, itr', hrest, ?_, hat⟩
        rw [hloop, ok_bind, decide_eq_true hx]
        rfl

section
variable (H : Holds fns loadLimit m t rows nodes)
include H

theorem Holds.walkable (hi : itr.index < t.tablelength)
    (hrow : rows itr.index = A ++ itr.e :: B) : Walkable m t rows itr B := by
  have he : itr.e ∈ rows itr.index := by rw [hrow]; simp
  have hword : ∀ p ∈ primes, p < 2 ^ 32 := by decide
  refine ⟨hi, hword _ (List.mem_of_getElem? H.prime), H.row_live hi he, H.ne_zero hi he,
    H.chained.next_eq hi hrow, fun c _ hc => H.head hc, H.chained.null, fun h0 => ?_⟩
  exact H.chained.null _ hi (by rw [hrow]; simp [h0])

/-- The round of an entry that stays. -/
theorem Holds.advance (hat : At t rows itr A rest) :
    ∃ itr', advance m t itr = .ok (decide (rest ≠ []), itr') ∧
      ∀ x R, rest = x :: R → itr'.e = x ∧ ∃ A', At t rows itr' A' R := by
  obtain ⟨B, hrow, rfl⟩ := hat.row
  rcases (H.walkable hat.index hrow).advance with ⟨x, B', rfl, hrun⟩ |
    ⟨rfl, R, itr', hR, hrun, hat'⟩ | ⟨rfl, hnil, c, hrun⟩
  · refine ⟨_, hrun, fun y R hR => ?_⟩
    obtain ⟨rfl, rfl⟩ := List.cons.inj hR
    refine ⟨rfl, A ++ [itr.e], hat.index, ⟨B', ?_, rfl⟩, lastOr_concat.symm⟩
    rw [hrow, List.append_assoc, List.singleton_append]
  · rw [List.nil_append, hR]
    refine ⟨itr', hrun, fun y R' hR' => ?_⟩
    obtain ⟨rfl, rfl⟩ := List.cons.inj hR'
    exact ⟨rfl, [], hat'⟩
  · rw [List.nil_append, hnil]
    exact ⟨_, hrun, fun y R hR => by cases hR⟩

/-- The pointer that the removal changes. -/
theorem slot_eq (hat : At t rows itr A rest) :
    (if itr.parent = 0 then Slot.head itr.index else .next itr.parent) = .behind itr.index A := by
  obtain ⟨B, hrow, -⟩ := hat.row
  rw [hat.parent]
  cases A using List.reverseRecOn with
  | nil => rfl
  | append_singleton A p _ =>
    rw [lastOr_concat, if_neg (H.ne_zero hat.index (by rw [hrow]; simp)), Slot.behind_concat]

/-- **`hashtable_iterator_remove`** takes the entry out, and the iterator goes on to the next. -/
theorem Holds.iteratorRemove (hat : At t rows itr A rest) :
    ∃ m' t' rows' itr', iteratorRemove m t itr = .ok (decide (rest ≠ []), m', t', itr') ∧
      Holds fns loadLimit m' t' rows' (nodes.filter (· ≠ itr.e)) ∧ m'.k = m.k ∧ m'.v = m.v ∧
      m'.brk = m.brk ∧ m'.freedKeys = m.freedKeys ++ [m.k itr.e] ∧
      m'.freedValues = m.freedValues ∧ t'.primeindex = t.primeindex ∧
      t'.entrycount = (t.entrycount + 2 ^ 32 - 1) % 2 ^ 32 ∧
      ∀ x R, rest = x :: R → itr'.e = x ∧ ∃ A', At t' rows' itr' A' R := by
  have hslots := slot_eq H hat
  obtain ⟨B, hrow, rfl⟩ := hat.row
  have hi := hat.index
  have W := H.walkable hi hrow
  obtain ⟨f, table, hstore, hslot, hsize⟩ := H.storeSlot hi hrow (m.next itr.e)
  have H' := H.unlink hi hrow (m.freedKeys ++ [m.k itr.e]) hslot hsize
  have hnodup := nodup_row H.chained.nodup hi
  rw [hrow] at hnodup
  have heA : itr.e ∉ A := fun hmem => (List.nodup_append.1 hnodup).2.2 _ hmem _ (by simp) rfl
  have hfrom : rowsFrom t.tablelength (Function.update rows itr.index (A ++ B)) (itr.index + 1) =
      rowsFrom t.tablelength rows (itr.index + 1) :=
    rowsFrom_congr fun c hc => Function.update_of_ne (by omega) ..
  -- the table without the entry, which is still allocated
  have W' : Walkable { m with next := f }
      { t with table := table, entrycount := (t.entrycount + 2 ^ 32 - 1) % 2 ^ 32 }
      (Function.update rows itr.index (A ++ B)) itr B :=
    ⟨hi, W.word, W.live, W.ne_zero, (Slot.store_next hslot heA).trans W.next,
      fun c _ hc => H'.head hc, H'.chained.null, W.behind⟩
  have hlive : { m with next := f }.live itr.e = true := W.live
  have he0 : (0 : Ptr) ≠ itr.e := W.ne_zero.symm
  unfold Hashtable.iteratorRemove
  rw [Memory.load_ok W.live, ok_bind, hslots, hstore, ok_bind]
  dsimp only
  rw [Memory.load_ok hlive, ok_bind]
  rcases W'.advance with ⟨x, B', rfl, hrun⟩ | ⟨rfl, R, itr', hR, hrun, hat'⟩ | ⟨rfl, hnil, c, hrun⟩
  · refine ⟨_, _, _, ⟨x, itr.parent, itr.index⟩, ?_, H', rfl, rfl, rfl, rfl, rfl, rfl, rfl,
      fun y R hR => ?_⟩
    · rw [hrun, ok_bind]
      dsimp only
      rw [if_pos rfl]
      rfl
    · obtain ⟨rfl, rfl⟩ := List.cons.inj hR
      exact ⟨rfl, A, hi, ⟨B', Function.update_self .., congrArg (B' ++ ·) hfrom.symm⟩, hat.parent⟩
  · dsimp only at hR
    rw [hfrom] at hR
    rw [List.nil_append, hR]
    refine ⟨_, _, _, itr', ?_, H', rfl, rfl, rfl, rfl, rfl, rfl, rfl, fun y R' hR' => ?_⟩
    · rw [hrun, ok_bind, hat'.parent, lastOr_nil, if_neg he0]
      rfl
    · obtain ⟨rfl, rfl⟩ := List.cons.inj hR'
      exact ⟨rfl, [], hat'⟩
  · dsimp only at hnil
    rw [hfrom] at hnil
    rw [List.nil_append, hnil]
    refine ⟨_, _, _, ⟨0, 0, c⟩, ?_, H', rfl, rfl, rfl, rfl, rfl, rfl, rfl,
      fun y R hR => by cases hR⟩
    rw [hrun, ok_bind, if_neg he0]
    rfl

/-! ## Loops -/

end

variable {drop : K → V → Bool}

def dropped (drop : K → V → Bool) (m : Memory K V) (p : Ptr) : Bool := drop (m.k p) (m.v p)

/-- What is left of `nodes` when `ps` have been visited. -/
def remaining (drop : K → V → Bool) (m : Memory K V) (ps nodes : List Ptr) : List Ptr :=
  nodes.filter fun p => !(decide (p ∈ ps) && dropped drop m p)

/-- What a loop has done when it has visited `ps`. -/
structure Visited (fns : KeyFns K) (loadLimit : Nat → Nat) (drop : K → V → Bool) (m : Memory K V)
    (t : Table) (nodes ps : List Ptr) (m' : Memory K V) (t' : Table) (rows' : Nat → List Ptr) :
    Prop where
  holds : Holds fns loadLimit m' t' rows' (remaining drop m ps nodes)
  k : m'.k = m.k
  v : m'.v = m.v
  brk : m'.brk = m.brk
  freedKeys : m'.freedKeys = m.freedKeys ++ (ps.filter (dropped drop m)).map m.k
  freedValues : m'.freedValues = m.freedValues
  primeindex : t'.primeindex = t.primeindex
  entrycount : t'.entrycount = (remaining drop m ps nodes).length % 2 ^ 32

theorem remaining_append (drop : K → V → Bool) (m : Memory K V) (A B nodes : List Ptr) :
    remaining drop m B (remaining drop m A nodes) = remaining drop m (A ++ B) nodes := by
  unfold remaining
  rw [List.filter_filter]
  refine List.filter_congr fun p _ => ?_
  cases dropped drop m p <;> simp [Bool.and_comm]

theorem Visited.trans {m' m'' : Memory K V} {t' t'' : Table} {rows' rows'' : Nat → List Ptr}
    (h : Visited fns loadLimit drop m t nodes A m' t' rows')
    (h' : Visited fns loadLimit drop m' t' (remaining drop m A nodes) B m'' t'' rows'') :
    Visited fns loadLimit drop m t nodes (A ++ B) m'' t'' rows'' := by
  have hdropped : dropped drop m' = dropped drop m := by
    unfold dropped
    rw [h.k, h.v]
  have hremaining : remaining drop m' B (remaining drop m A nodes) =
      remaining drop m (A ++ B) nodes := by
    rw [← remaining_append]
    unfold remaining
    rw [hdropped]
  refine ⟨hremaining ▸ h'.holds, h'.k.trans h.k, h'.v.trans h.v, h'.brk.trans h.brk, ?_,
    h'.freedValues.trans h.freedValues, h'.primeindex.trans h.primeindex,
    hremaining ▸ h'.entrycount⟩
  rw [h'.freedKeys, h.freedKeys, hdropped, h.k, List.filter_append, List.map_append,
    List.append_assoc]

/-- **A round** of the loop. -/
theorem Holds.visit (H : Holds fns loadLimit m t rows nodes) (hat : At t rows itr A rest)
    (hcount : t.entrycount = nodes.length % 2 ^ 32) (drop : K → V → Bool) :
    ∃ m' t' rows' itr', visit drop m t itr (m.k itr.e) (m.v itr.e) =
        .ok (decide (rest ≠ []), m', t', itr') ∧
      Visited fns loadLimit drop m t nodes [itr.e] m' t' rows' ∧
      ∀ x R, rest = x :: R → itr'.e = x ∧ ∃ A', At t' rows' itr' A' R := by
  obtain ⟨B, hrow, -⟩ := hat.row
  have hmem : itr.e ∈ nodes := H.mem_nodes hat.index (by rw [hrow]; simp)
  unfold Hashtable.visit
  cases hdrop : drop (m.k itr.e) (m.v itr.e) with
  | true =>
    have hremaining : remaining drop m [itr.e] nodes = nodes.filter (· ≠ itr.e) := by
      refine List.filter_congr fun p _ => ?_
      by_cases hp : p = itr.e
      · simp [hp, dropped, hdrop]
      · simp [hp]
    obtain ⟨m', t', rows', itr', hrun, H', hk, hv, hbrk, hkeys, hvals, hprime, hcount', hat'⟩ :=
      H.iteratorRemove hat
    have hlen := H.length_without hmem
    refine ⟨m', t', rows', itr', ?_, ⟨hremaining ▸ H', hk, hv, hbrk, ?_, hvals, hprime, ?_⟩, hat'⟩
    · rw [if_pos rfl, hrun]
    · rw [hkeys]
      simp [dropped, hdrop]
    · rw [hcount', hcount, hremaining]
      omega
  | false =>
    have hremaining : remaining drop m [itr.e] nodes = nodes := by
      refine List.filter_eq_self.2 fun p _ => ?_
      by_cases hp : p = itr.e
      · simp [hp, dropped, hdrop]
      · simp [hp]
    obtain ⟨itr', hrun, hat'⟩ := H.advance hat
    refine ⟨m, t, rows, itr', ?_, ⟨hremaining.symm ▸ H, rfl, rfl, rfl, ?_, rfl, rfl, ?_⟩, hat'⟩
    · rw [if_neg Bool.false_ne_true, hrun]
      rfl
    · simp [dropped, hdrop]
    · rw [hremaining, hcount]

/-- **The loop** comes to every entry from its position on. -/
theorem Holds.visitLoop (drop : K → V → Bool) : ∀ {fuel : Nat} {m : Memory K V} {t : Table}
    {rows : Nat → List Ptr} {nodes A rest : List Ptr} {itr : Itr},
    Holds fns loadLimit m t rows nodes → At t rows itr A rest →
    t.entrycount = nodes.length % 2 ^ 32 → rest.length < fuel →
    ∃ m' t' rows', visitLoop drop fuel m t itr =
        .ok ((itr.e :: rest).map (fun p => (m.k p, m.v p)), m', t') ∧
      Visited fns loadLimit drop m t nodes (itr.e :: rest) m' t' rows'
  | 0, _, _, _, _, _, _, _, _, _, _, hf => absurd hf (Nat.not_lt_zero _)
  | fuel + 1, m, t, rows, nodes, A, rest, itr, H, hat, hcount, hf => by
    obtain ⟨B, hrow, -⟩ := hat.row
    have hlive := H.row_live hat.index (e := itr.e) (by rw [hrow]; simp)
    obtain ⟨m₁, t₁, rows₁, itr₁, hrun, hvisited, hat₁⟩ := H.visit hat hcount drop
    unfold Hashtable.visitLoop
    rw [Memory.load_ok hlive, ok_bind, Memory.load_ok hlive, ok_bind, hrun, ok_bind]
    dsimp only
    cases rest with
    | nil => exact ⟨m₁, t₁, rows₁, rfl, hvisited⟩
    | cons x R =>
      obtain ⟨rfl, A', hat'⟩ := hat₁ x R rfl
      obtain ⟨m', t', rows', hloop, hvisited'⟩ := Holds.visitLoop drop hvisited.holds hat'
        hvisited.entrycount (Nat.lt_of_succ_lt_succ hf)
      refine ⟨m', t', rows', ?_, hvisited.trans hvisited'⟩
      rw [if_pos (by simp), hloop, ok_bind, hvisited.k, hvisited.v]
      rfl

/-- The loop over the whole table. -/
theorem Holds.visitAll (H : Holds fns loadLimit m t rows nodes)
    (hcount : t.entrycount = nodes.length % 2 ^ 32) (hlen : nodes.length < 2 ^ 32)
    (drop : K → V → Bool) :
    ∃ m' t' rows', visitAll drop m t =
        .ok ((Buckets.rows t.tablelength rows).map (fun p => (m.k p, m.v p)), m', t') ∧
      Visited fns loadLimit drop m t nodes (Buckets.rows t.tablelength rows) m' t' rows' := by
  have hentries : t.entrycount = nodes.length := hcount.trans (Nat.mod_eq_of_lt hlen)
  have hperm := H.perm
  unfold Hashtable.visitAll
  rcases rowLoop_spec H.chained.null (fun c _ hc => H.head hc) H.pos
    (Nat.le_add_right t.tablelength 0) with ⟨hnil, -⟩ | ⟨rest, itr, hrest, hloop, hat⟩
  · rw [rowsFrom_zero] at hnil
    rw [hnil] at hperm ⊢
    have hnodes : nodes = [] := hperm.nil_eq.symm
    have hzero : ¬ t.entrycount > 0 := by
      rw [hentries, hnodes]
      exact lt_irrefl 0
    have hsame : remaining drop m [] nodes = nodes := by
      rw [hnodes]
      rfl
    refine ⟨m, t, rows, ?_, hsame.symm ▸ H, rfl, rfl, rfl, ?_, rfl, rfl, ?_⟩
    · rw [if_neg hzero]
      rfl
    · exact (List.append_nil _).symm
    · rw [hsame, hcount]
  · rw [rowsFrom_zero] at hrest
    rw [hrest] at hperm ⊢
    have hcons : nodes.length = rest.length + 1 := by rw [← hperm.length_eq, List.length_cons]
    have hpos : t.entrycount > 0 := by omega
    have hiterator : iterator t = .ok itr := by
      unfold iterator
      rw [if_neg fun hor => hor.elim hpos.ne' H.pos.ne', hloop]
    have hsub : nodes ⊆ List.range m.brk := fun p hp => List.mem_range.2 (H.bound p hp)
    have hle := (H.nodup.subperm hsub).length_le
    rw [List.length_range] at hle
    rw [if_pos hpos, hiterator, ok_bind]
    exact H.visitLoop drop hat hcount (by omega)

theorem Model.length_le {s : Model K V} {answers : List (Answer V)} {i : Nat} {ops : List (Op K V)}
    (h : Model.run fns loadLimit ⟨[], i, []⟩ ops = some (answers, s)) :
    s.entries.length ≤ ops.length := by
  have hlen := (Model.run_keys ops h).length_eq
  have hle := List.length_filterMap_le Op.takes ops
  simp only [List.length_append, List.length_map, List.length_nil] at hlen
  omega

end

/-- **A loop over the table** that takes out the entries that it is told to comes to every entry
once, and the table is left with the others. -/
theorem visitAll_spec {K V : Type} (fns : KeyFns K) (loadLimit : Nat → Nat) (minsize : Nat)
    (hsize : minsize ≤ 2 ^ 30) {m : Memory K V} (hm : Fresh m) (ops : List (Op K V))
    (hops : ops.length < 2 ^ 32) (drop : K → V → Bool) :
    ∃ t, create loadLimit minsize true true = some t ∧
      ∀ answers s, Model.run fns loadLimit ⟨[], t.primeindex, []⟩ ops = some (answers, s) →
        ∃ m₁ t₁ m₂ t₂ visited, runOps fns loadLimit m t ops = .ok (answers, m₁, t₁) ∧
          visitAll drop m₁ t₁ = .ok (visited, m₂, t₂) ∧ visited.Perm s.entries ∧
          Represents fns loadLimit m₂ t₂
            { s with
              entries := s.entries.filter fun e => !drop e.1 e.2
              freed := s.freed ++ (visited.filter fun e => drop e.1 e.2).map Prod.fst } := by
  obtain ⟨t, hcreate, -, -, R⟩ := create_spec fns loadLimit hsize hm
  refine ⟨t, hcreate, fun answers s hmodel => ?_⟩
  have hrun := R.run ops
  rw [hmodel] at hrun
  obtain ⟨m₁, t₁, hrun, rows, nodes, H, hentries, hcount, hprime, hfreed, hvalues⟩ := hrun
  have hlen : nodes.length < 2 ^ 32 := by
    have hle := Model.length_le hmodel
    rw [hentries, List.length_map] at hle
    omega
  obtain ⟨m₂, t₂, rows₂, hvisit, hvisited⟩ := H.visitAll hcount hlen drop
  refine ⟨m₁, t₁, m₂, t₂, _, hrun, hvisit, ?_, rows₂, _, hvisited.holds, ?_, hvisited.entrycount,
    hprime.trans hvisited.primeindex.symm, ?_, hvisited.freedValues.trans hvalues⟩
  · rw [hentries]
    exact H.perm.map _
  · dsimp only
    unfold remaining dropped
    rw [hvisited.k, hvisited.v, hentries, List.filter_map]
    refine congrArg _ (List.filter_congr fun p hp => ?_)
    rw [decide_eq_true (H.perm.mem_iff.2 hp)]
    rfl
  · dsimp only
    rw [hvisited.freedKeys, hfreed, List.filter_map, List.map_map]
    rfl

/-- The even keys are taken out. -/
theorem visitAll_sample :
    ∃ t, create ceilLoad 16 true true = some t ∧
      ∀ answers s,
        Model.run natKeys ceilLoad ⟨[], t.primeindex, []⟩ growingRun = some (answers, s) →
        ∃ m₁ t₁ m₂ t₂ visited, runOps natKeys ceilLoad noEntries t growingRun =
            .ok (answers, m₁, t₁) ∧
          visitAll (fun k _ => k % 2 = 0) m₁ t₁ = .ok (visited, m₂, t₂) ∧
          visited.Perm s.entries ∧
          Represents natKeys ceilLoad m₂ t₂
            { s with
              entries := s.entries.filter fun e => !decide (e.1 % 2 = 0)
              freed := s.freed ++ (visited.filter fun e => e.1 % 2 = 0).map Prod.fst } :=
  visitAll_spec natKeys ceilLoad 16 (by decide) noEntries_fresh growingRun (by decide)
    fun k _ => k % 2 = 0

/-! ## Searches -/

section
variable {K V : Type} {fns : KeyFns K} {loadLimit : Nat → Nat} {m : Memory K V} {t : Table}
  {rows : Nat → List Ptr} {nodes : List Ptr} {i : Nat}

theorem Holds.searchItrLoop (H : Holds fns loadLimit m t rows nodes) (hi : i < t.tablelength)
    (k : K) : ∀ {B A : List Ptr} {fuel : Nat}, rows i = A ++ B → B.length < fuel →
      (B.find? (Matches fns m k ·) = none ∧
        searchItrLoop fns m k fuel (headOr 0 B) (lastOr 0 A) = .ok none) ∨
      ∃ e A' rest, B.find? (Matches fns m k ·) = some e ∧
        searchItrLoop fns m k fuel (headOr 0 B) (lastOr 0 A) = .ok (some (e, lastOr 0 A')) ∧
        At t rows ⟨e, lastOr 0 A', i⟩ A' rest
  | _, _, 0, _, hf => absurd hf (Nat.not_lt_zero _)
  | [], A, fuel + 1, _, _ => by
    refine .inl ⟨rfl, ?_⟩
    unfold Hashtable.searchItrLoop
    rw [headOr_nil, if_neg (not_not.2 rfl)]
    rfl
  | p :: B, A, fuel + 1, hrow, hf => by
    have hp : p ∈ rows i := by rw [hrow]; simp
    have hlive := H.row_live hi hp
    unfold Hashtable.searchItrLoop
    rw [headOr_cons, if_pos (H.ne_zero hi hp), Memory.load_ok hlive, ok_bind,
      Memory.load_ok hlive, ok_bind, List.find?_cons]
    by_cases hmatch : Matches fns m k p
    · rw [if_pos (by exact hmatch), decide_eq_true hmatch]
      exact .inr ⟨p, A, _, rfl, rfl, hi, ⟨B, hrow, rfl⟩, rfl⟩
    · have hrest := H.searchItrLoop hi k (B := B) (A := A ++ [p]) (by simpa using hrow)
        (Nat.lt_of_succ_lt_succ hf)
      rw [if_neg (by exact hmatch), decide_eq_false hmatch, Memory.load_ok hlive, ok_bind,
        H.chained.next_eq hi hrow]
      rwa [lastOr_concat] at hrest

/-- **`hashtable_iterator_search`** puts the iterator at the newest entry with an equal key, and
leaves it alone if there is none. -/
theorem Holds.iteratorSearch (H : Holds fns loadLimit m t rows nodes) (itr : Itr) (k : K) :
    (nodes.find? (fun p => fns.eqfn k (m.k p)) = none ∧
      iteratorSearch fns m t itr k = .ok (false, itr)) ∨
    ∃ itr' A rest, nodes.find? (fun p => fns.eqfn k (m.k p)) = some itr'.e ∧
      iteratorSearch fns m t itr k = .ok (true, itr') ∧ At t rows itr' A rest := by
  have hi := H.index_lt (hash fns k)
  unfold Hashtable.iteratorSearch
  dsimp only
  rw [← H.find_row k, H.head hi, ok_bind]
  rcases H.searchItrLoop hi k (A := []) rfl (H.row_lt hi) with
    ⟨hfind, hloop⟩ | ⟨e, A, rest, hfind, hloop, hat⟩
  · rw [lastOr_nil] at hloop
    rw [hloop]
    exact .inl ⟨hfind, rfl⟩
  · rw [lastOr_nil] at hloop
    rw [hloop]
    exact .inr ⟨_, A, rest, hfind, rfl, hat⟩

end

/-- **Removing through an iterator** that a search has placed is `hashtable_remove`. -/
theorem iteratorSearch_remove {K V : Type} (fns : KeyFns K) (loadLimit : Nat → Nat) (minsize : Nat)
    (hsize : minsize ≤ 2 ^ 30) {m : Memory K V} (hm : Fresh m) (ops : List (Op K V)) (itr : Itr)
    (k : K) :
    ∃ t, create loadLimit minsize true true = some t ∧
      ∀ answers s, Model.run fns loadLimit ⟨[], t.primeindex, []⟩ ops = some (answers, s) →
        ∃ m₁ t₁, runOps fns loadLimit m t ops = .ok (answers, m₁, t₁) ∧
          ((s.find fns k = none ∧ iteratorSearch fns m₁ t₁ itr k = .ok (false, itr)) ∨
          ∃ itr' ret m₂ t₂ itr'' v s', iteratorSearch fns m₁ t₁ itr k = .ok (true, itr') ∧
            iteratorRemove m₁ t₁ itr' = .ok (ret, m₂, t₂, itr'') ∧
            s.step fns loadLimit (.remove k) = some (.value (some v), s') ∧
            m₁.load m₁.v itr'.e = .ok v ∧ Represents fns loadLimit m₂ t₂ s') := by
  obtain ⟨t, hcreate, -, -, R⟩ := create_spec fns loadLimit hsize hm
  refine ⟨t, hcreate, fun answers s hmodel => ?_⟩
  have hrun := R.run ops
  rw [hmodel] at hrun
  obtain ⟨m₁, t₁, hrun, rows, nodes, H, hentries, hcount, hprime, hfreed, hvalues⟩ := hrun
  have hfind : s.find fns k =
      (nodes.find? fun p => fns.eqfn k (m₁.k p)).map fun p => (m₁.k p, m₁.v p) := by
    unfold Model.find
    rw [hentries, List.find?_map]
    rfl
  refine ⟨m₁, t₁, hrun, ?_⟩
  rcases H.iteratorSearch itr k with ⟨hnone, hsearch⟩ | ⟨itr', A, rest, he, hsearch, hat⟩
  · exact .inl ⟨by rw [hfind, hnone]; rfl, hsearch⟩
  · right
    obtain ⟨m₂, t₂, rows₂, itr'', hremove, H', hk, hv, -, hkeys, hvals, hprime', hcount', -⟩ :=
      H.iteratorRemove hat
    have hlive : m₁.live itr'.e = true := (H.live _).2 (List.mem_of_find?_eq_some he)
    have R' := H.represents_without he H' hk hv hcount hcount' (hvals.trans hvalues)
    rw [← hentries, hprime', ← hprime, hkeys, ← hfreed] at R'
    refine ⟨itr', _, m₂, t₂, itr'', m₁.v itr'.e, _, hsearch, hremove, ?_,
      Memory.load_ok hlive _, R'⟩
    dsimp only [Model.step]
    rw [hfind, he]
    rfl

theorem iteratorSearch_remove_sample :
    ∃ t, create ceilLoad 16 true true = some t ∧
      ∀ answers s,
        Model.run natKeys ceilLoad ⟨[], t.primeindex, []⟩ growingRun = some (answers, s) →
        ∃ m₁ t₁, runOps natKeys ceilLoad noEntries t growingRun =
            .ok (answers, m₁, t₁) ∧
          ((s.find natKeys 1 = none ∧
            iteratorSearch natKeys m₁ t₁ ⟨0, 0, 0⟩ 1 = .ok (false, ⟨0, 0, 0⟩)) ∨
          ∃ itr' ret m₂ t₂ itr'' v s',
            iteratorSearch natKeys m₁ t₁ ⟨0, 0, 0⟩ 1 = .ok (true, itr') ∧
            iteratorRemove m₁ t₁ itr' = .ok (ret, m₂, t₂, itr'') ∧
            s.step natKeys ceilLoad (.remove 1) = some (.value (some v), s') ∧
            m₁.load m₁.v itr'.e = .ok v ∧ Represents natKeys ceilLoad m₂ t₂ s') :=
  iteratorSearch_remove natKeys ceilLoad 16 (by decide) noEntries_fresh growingRun
    ⟨0, 0, 0⟩ 1

end Hashtable
