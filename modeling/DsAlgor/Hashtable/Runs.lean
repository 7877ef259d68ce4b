import DsAlgor.Hashtable.Table

/-!
# Runs of the hash table

The table keeps a list of entries, the newest first: a search finds the first entry with an equal
key and a removal takes it away. When the table grows the list is turned round, which changes the
order in which duplicate keys are found (`hashtable_refines`). A table that is destroyed in the end
has freed every key that it took, once (`destroy_frees`).
-/

namespace Hashtable

open HashChains Circular
open Outcome (ok_bind)

/-! ## The list of entries -/

structure Model (K V : Type) where
  /-- Newest first. -/
  entries : List (K × V)
  primeindex : Nat
  /-- The keys that have been freed. -/
  freed : List K

inductive Op (K V : Type) where
  | insert (a : Allocs) (k : K) (v : V)
  | search (k : K)
  | remove (k : K)

inductive Answer (V : Type) where
  | stored (b : Bool)
  | value (v : Option V)

namespace Model

variable {K V : Type} (fns : KeyFns K) (loadLimit : Nat → Nat)

def Crowded (s : Model K V) : Prop :=
  (s.entries.length + 1) % 2 ^ 32 > loadLimit (primes.getD s.primeindex 0)

instance (s : Model K V) : Decidable (s.Crowded loadLimit) := inferInstanceAs (Decidable (_ > _))

/-- A table that is crowded and not of the last size needs memory for a larger one. -/
def Grows (s : Model K V) : Prop := s.Crowded loadLimit ∧ s.primeindex ≠ primes.length - 1

instance (s : Model K V) : Decidable (s.Grows loadLimit) := inferInstanceAs (Decidable (_ ∧ _))

def grow (a : Allocs) (s : Model K V) : Model K V :=
  if s.Grows loadLimit ∧ a.table = true then
    { s with entries := s.entries.reverse, primeindex := s.primeindex + 1 }
  else s

def find (s : Model K V) (k : K) : Option (K × V) := s.entries.find? fun e => fns.eqfn k e.1

/-- What an operation answers, and what it leaves. There is no answer where the table is enlarged
by `realloc`. -/
def step (s : Model K V) : Op K V → Option (Answer V × Model K V)
  | .insert a k v =>
    if s.Grows loadLimit ∧ PlanB a then none
    else
      let s := s.grow loadLimit a
      some (.stored a.entry, if a.entry then { s with entries := (k, v) :: s.entries } else s)
  | .search k => some (.value ((s.find fns k).map Prod.snd), s)
  | .remove k =>
    match s.find fns k with
    | none => some (.value none, s)
    | some e =>
      some (.value (some e.2), { s with
        entries := s.entries.eraseP fun e => fns.eqfn k e.1
        freed := s.freed ++ [e.1] })

def run (s : Model K V) : List (Op K V) → Option (List (Answer V) × Model K V)
  | [] => some ([], s)
  | op :: ops => do
    let (answer, s) ← s.step fns loadLimit op
    let (answers, s) ← run s ops
    return (answer :: answers, s)

end Model

section
variable {K V : Type} (fns : KeyFns K) (loadLimit : Nat → Nat)

/-- The key that an insertion takes. -/
def Op.takes : Op K V → Option K
  | .insert a k _ => if a.entry then some k else none
  | _ => none

def Op.run (m : Memory K V) (t : Table) :
    Op K V → Except Fault (Answer V × Memory K V × Table)
  | .insert a k v => do
    let (b, s) ← Hashtable.insert fns loadLimit a m t k v
    return (.stored b, s)
  | .search k => do return (.value (← Hashtable.search fns m t k), m, t)
  | .remove k => do
    let (v, s) ← Hashtable.remove fns m t k
    return (.value v, s)

def runOps (m : Memory K V) (t : Table) :
    List (Op K V) → Except Fault (List (Answer V) × Memory K V × Table)
  | [] => return ([], m, t)
  | op :: ops => do
    let (answer, m, t) ← op.run fns loadLimit m t
    let (answers, s) ← runOps m t ops
    return (answer :: answers, s)

/-- A memory without entries. -/
structure Fresh (m : Memory K V) : Prop where
  live : ∀ p, m.live p = false
  brk : 0 < m.brk
  freedKeys : m.freedKeys = []
  freedValues : m.freedValues = []

/-- The table has the entries of the model. -/
def Represents (m : Memory K V) (t : Table) (s : Model K V) : Prop :=
  ∃ rows nodes, Holds fns loadLimit m t rows nodes ∧
    s.entries = nodes.map (fun p => (m.k p, m.v p)) ∧ t.entrycount = nodes.length % 2 ^ 32 ∧
    s.primeindex = t.primeindex ∧ s.freed = m.freedKeys ∧ m.freedValues = []

/-- The table does what the list does. -/
def Follows {α : Type} (r : Except Fault (α × Memory K V × Table)) :
    Option (α × Model K V) → Prop
  | none => r = .error .uninitialised
  | some (answer, s) => ∃ m t, r = .ok (answer, m, t) ∧ Represents fns loadLimit m t s

end

/-! ## Creation -/

theorem findPrime_spec {minsize : Nat} : ∀ {ps : List Nat} (pindex : Nat), (∃ p ∈ ps, p > minsize) →
    ∃ j, ps[j]? = some (findPrime minsize pindex ps).1 ∧
      (findPrime minsize pindex ps).2 = pindex + j ∧ (findPrime minsize pindex ps).1 > minsize ∧
      ∀ i < j, ∀ p, ps[i]? = some p → p ≤ minsize
  | [], _, h => absurd h (by simp)
  | p :: ps, pindex, h => by
    unfold findPrime
    by_cases hp : p > minsize
    · rw [if_pos hp]
      exact ⟨0, rfl, rfl, hp, fun i hi => absurd hi (Nat.not_lt_zero i)⟩
    · rw [if_neg hp]
      obtain ⟨q, hq, hgt⟩ := h
      have hq' : q ∈ ps := (List.mem_cons.1 hq).resolve_left fun heq => hp (heq ▸ hgt)
      obtain ⟨j, hj, hindex, hlt, hleast⟩ := findPrime_spec (pindex + 1) ⟨q, hq', hgt⟩
      refine ⟨j + 1, hj, by omega, hlt, fun i hi r hr => ?_⟩
      cases i with
      | zero => exact Option.some.inj hr ▸ not_lt.1 hp
      | succ i => exact hleast i (by omega) r hr

section
variable {K V : Type} {fns : KeyFns K} {loadLimit : Nat → Nat} {m : Memory K V} {t : Table}
  {s : Model K V}

/-- **`create_hashtable`** makes an empty table of the first prime size above the one that is
asked for. -/
theorem create_spec (fns : KeyFns K) (loadLimit : Nat → Nat) {minsize : Nat}
    (hsize : minsize ≤ 2 ^ 30) {m : Memory K V} (hm : Fresh m) :
    ∃ t, create loadLimit minsize true true = some t ∧ minsize < t.tablelength ∧
      (∀ i < t.primeindex, ∀ p, primes[i]? = some p → p ≤ minsize) ∧
      Represents fns loadLimit m t ⟨[], t.primeindex, []⟩ := by
  have hlast : ∃ p ∈ primes, p > minsize := ⟨1610612741, by decide, by omega⟩
  obtain ⟨j, hj, hindex, hlt, hleast⟩ := findPrime_spec 0 hlast
  rw [Nat.zero_add] at hindex
  refine ⟨{
    tablelength := (findPrime minsize 0 primes).1
    table := List.replicate (findPrime minsize 0 primes).1 0
    entrycount := 0
    loadlimit := loadLimit (findPrime minsize 0 primes).1
    primeindex := (findPrime minsize 0 primes).2 }, ?_, hlt, ?_, fun _ => [], [], ?_, rfl, rfl,
    rfl, hm.freedKeys.symm, hm.freedValues⟩
  · unfold create
    rw [if_neg (by omega)]
    rfl
  · dsimp only
    rw [hindex]
    exact hleast
  · have hempty : ∀ n, Buckets.rows n (fun _ => ([] : List Ptr)) = [] := fun n => by
      simp [Buckets.rows]
    refine ⟨⟨fun i _ => heads_replicate 0 _ i, fun _ _ => List.not_mem_nil, ?_⟩,
      List.length_replicate .., ?_, ?_, fun _ => rfl, fun p => ?_, ?_, hm.brk, ?_, ?_, rfl⟩
    · rw [hempty]
      exact List.nodup_nil
    · rw [hempty]
    · exact fun _ _ p hp => absurd hp List.not_mem_nil
    · rw [hm.live]
      simp
    · exact fun p hp => absurd hp List.not_mem_nil
    · exact fun p hp => absurd hp List.not_mem_nil
    · dsimp only
      rw [hindex]
      exact hj

/-! ## Steps -/

theorem grows_iff (hcount : t.entrycount = s.entries.length % 2 ^ 32)
    (hlimit : t.loadlimit = loadLimit (primes.getD s.primeindex 0))
    (hprime : s.primeindex = t.primeindex) :
    s.Grows loadLimit ↔ Grows t := by
  unfold Model.Grows Model.Crowded Grows Crowded CanGrow
  rw [hcount, hlimit, hprime, Nat.mod_add_mod]

variable {nodes : List Ptr}

/-- The entry that a search finds is the one that `eraseP` takes away. -/
theorem eraseP_eq_filter {q : Ptr → Bool} {e : Ptr} (hnd : nodes.Nodup)
    (hfind : nodes.find? q = some e) : nodes.eraseP q = nodes.filter (· ≠ e) := by
  obtain ⟨hq, A, B, rfl, hA⟩ := List.find?_eq_some_iff_append.1 hfind
  have hnot : ∀ p ∈ A, ¬ q p = true := fun p hp => by simpa using hA p hp
  obtain ⟨heA, heB⟩ := not_or.1 fun hor =>
    (List.nodup_cons.1 (List.nodup_middle.1 hnd)).1 (List.mem_append.2 hor)
  have hkeep : ∀ L : List Ptr, e ∉ L → L.filter (· ≠ e) = L := fun L hL =>
    List.filter_eq_self.2 fun p hp => decide_eq_true (ne_of_mem_of_not_mem hp hL)
  rw [List.eraseP_append_right _ hnot, List.eraseP_cons_of_pos hq, List.filter_append,
    List.filter_cons, if_neg (by simp), hkeep A heA, hkeep B heB]

/-- The list of a table without the entry that a search for `k` finds. -/
theorem Holds.represents_without {m' : Memory K V} {t' : Table} {rows rows' : Nat → List Ptr}
    {e : Ptr} {k : K} (H : Holds fns loadLimit m t rows nodes)
    (hfind : nodes.find? (fun p => fns.eqfn k (m.k p)) = some e)
    (H' : Holds fns loadLimit m' t' rows' (nodes.filter (· ≠ e))) (hk : m'.k = m.k)
    (hv : m'.v = m.v) (hcount : t.entrycount = nodes.length % 2 ^ 32)
    (hcount' : t'.entrycount = (t.entrycount + 2 ^ 32 - 1) % 2 ^ 32)
    (hvalues : m'.freedValues = []) : Represents fns loadLimit m' t'
      { entries := (nodes.map fun p => (m.k p, m.v p)).eraseP fun e => fns.eqfn k e.1
        primeindex := t'.primeindex
        freed := m'.freedKeys } := by
  have hwithout := H.length_without (List.mem_of_find?_eq_some hfind)
  refine ⟨rows', _, H', ?_, ?_, rfl, rfl, hvalues⟩
  · dsimp only
    rw [hk, hv, List.eraseP_map, ← eraseP_eq_filter H.nodup hfind]
    rfl
  · rw [hcount', hcount]
    omega

theorem find_eq (hentries : s.entries = nodes.map fun p => (m.k p, m.v p)) (k : K) : s.find fns k =
      (nodes.find? fun p => fns.eqfn k (m.k p)).map fun p => (m.k p, m.v p) := by
  unfold Model.find
  rw [hentries, List.find?_map]
  rfl

/-- The entries after an expansion, as the model has them. -/
theorem grow_eq (a : Allocs) (hentries : s.entries = nodes.map fun p => (m.k p, m.v p))
    (hprime : s.primeindex = t.primeindex) (hgrows : s.Grows loadLimit ↔ Grows t) :
    (s.grow loadLimit a).entries = (grown a t nodes).map (fun p => (m.k p, m.v p)) ∧
      (s.grow loadLimit a).primeindex = grownIndex a t ∧
      (s.grow loadLimit a).freed = s.freed := by
  unfold Model.grow grown grownIndex
  simp only [hgrows]
  split_ifs
  · exact ⟨by rw [hentries, List.map_reverse], by rw [hprime], rfl⟩
  · exact ⟨hentries, hprime, rfl⟩

theorem grown_perm (a : Allocs) (t : Table) (nodes : List Ptr) : (grown a t nodes).Perm nodes := by
  unfold grown
  split_ifs
  · exact List.reverse_perm nodes
  · exact .refl nodes

theorem Represents.insert (R : Represents fns loadLimit m t s) (a : Allocs) (k : K) (v : V) :
    Follows fns loadLimit ((Op.insert a k v).run fns loadLimit m t)
      (s.step fns loadLimit (.insert a k v)) := by
  obtain ⟨rows, nodes, H, hentries, hcount, hprime, hfreed, hvalues⟩ := R
  have hlen : s.entries.length = nodes.length := by rw [hentries, List.length_map]
  have hgrows : s.Grows loadLimit ↔ Grows t := by
    refine grows_iff (by rw [hlen, hcount]) ?_ hprime
    rw [H.limit, hprime, List.getD_eq_getElem?_getD, H.prime]
    rfl
  obtain ⟨hgrown, hindex, hfreed'⟩ := grow_eq a hentries hprime hgrows
  have hsize := (grown_perm a t nodes).length_eq
  have hfresh : ∀ p ∈ grown a t nodes, p ≠ m.brk :=
    fun p hp => (H.bound p ((grown_perm a t nodes).mem_iff.1 hp)).ne
  dsimp only [Model.step]
  rcases H.insert a k v (by rw [hcount]; exact Nat.mod_lt _ (Nat.two_pow_pos 32)) with
    ⟨hfault, herr⟩ | ⟨hfine, m', t', rows', hrun, H', hk, hv, hkeys, hvals, hcount', hprime'⟩
  · rw [if_pos (by rwa [hgrows])]
    show (do
      let (b, s) ← Hashtable.insert fns loadLimit a m t k v
      return (Answer.stored b, s)) = _
    rw [herr]
    rfl
  · rw [if_neg (by rwa [hgrows])]
    refine ⟨m', t', ?_, rows', _, H', ?_, ?_, ?_, ?_, hvals.trans hvalues⟩
    · show (do
        let (b, s) ← Hashtable.insert fns loadLimit a m t k v
        return (Answer.stored b, s)) = _
      rw [hrun, ok_bind]
      rfl
    · rw [hk, hv]
      cases a.entry with
      | true =>
        have hold : (grown a t nodes).map (fun p =>
            (Function.update m.k m.brk k p, Function.update m.v m.brk v p)) =
            (grown a t nodes).map (fun p => (m.k p, m.v p)) := by
          refine List.map_congr_left fun p hp => ?_
          rw [Function.update_of_ne (hfresh p hp), Function.update_of_ne (hfresh p hp)]
        simp only [if_true, List.map_cons, Function.update_self, hold, hgrown]
      | false => exact hgrown
    · rw [hcount', hcount]
      cases a.entry with
      | true =>
        rw [if_pos rfl, if_pos rfl, List.length_cons, hsize]
        omega
      | false =>
        rw [if_neg Bool.false_ne_true, if_neg Bool.false_ne_true, hsize]
    · rw [hprime', ← hindex]
      cases a.entry <;> rfl
    · rw [hkeys, ← hfreed, ← hfreed']
      cases a.entry <;> rfl

theorem Represents.remove (R : Represents fns loadLimit m t s) (k : K) :
    Follows fns loadLimit ((Op.remove k).run fns loadLimit m t)
      (s.step fns loadLimit (.remove k)) := by
  obtain ⟨rows, nodes, H, hentries, hcount, hprime, hfreed, hvalues⟩ := R
  dsimp only [Model.step]
  rw [find_eq hentries]
  rcases H.remove k with ⟨he, hremove⟩ |
    ⟨e, m', t', rows', he, hrun, H', hk, hv, hkeys, hvals, hprime', hcount'⟩
  · rw [he]
    refine ⟨m, t, ?_, rows, nodes, H, hentries, hcount, hprime, hfreed, hvalues⟩
    show (do
      let (v, s) ← Hashtable.remove fns m t k
      return (Answer.value v, s)) = _
    rw [hremove, ok_bind]
    rfl
  · rw [he]
    refine ⟨m', t', ?_, ?_⟩
    · show (do
        let (v, s) ← Hashtable.remove fns m t k
        return (Answer.value v, s)) = _
      rw [hrun, ok_bind]
      rfl
    · have R' := H.represents_without he H' hk hv hcount hcount' (hvals.trans hvalues)
      rw [← hentries, hprime', ← hprime, hkeys, ← hfreed] at R'
      exact R'

/-- **An operation** on the table is one on the list. -/
theorem Represents.step (R : Represents fns loadLimit m t s) (op : Op K V) :
    Follows fns loadLimit (op.run fns loadLimit m t) (s.step fns loadLimit op) := by
  cases op with
  | insert a k v => exact R.insert a k v
  | search k =>
    obtain ⟨rows, nodes, H, hentries, hcount, hprime, hfreed, hvalues⟩ := R
    refine ⟨m, t, ?_, rows, nodes, H, hentries, hcount, hprime, hfreed, hvalues⟩
    show (do return (Answer.value (← Hashtable.search fns m t k), m, t)) = _
    rw [H.search, ok_bind, find_eq hentries, Option.map_map]
    rfl
  | remove k => exact R.remove k

theorem Represents.run (ops : List (Op K V)) : ∀ {m : Memory K V} {t : Table} {s : Model K V},
    Represents fns loadLimit m t s →
    Follows fns loadLimit (runOps fns loadLimit m t ops) (s.run fns loadLimit ops) := by
  induction ops with
  | nil => exact fun R => ⟨_, _, rfl, R⟩
  | cons op ops ih =>
    intro m t s R
    have hstep := R.step op
    rw [Model.run, runOps]
    cases hs : s.step fns loadLimit op with
    | none =>
      rw [hs] at hstep
      show (do
        let (answer, m, t) ← op.run fns loadLimit m t
        let (answers, s) ← runOps fns loadLimit m t ops
        return (answer :: answers, s)) = Except.error Fault.uninitialised
      rw [hstep]
      rfl
    | some next =>
      obtain ⟨answer, s'⟩ := next
      rw [hs] at hstep
      obtain ⟨m', t', hrun, R'⟩ := hstep
      have hrest := ih R'
      rw [hrun, ok_bind]
      dsimp only [Option.bind_eq_bind, Option.bind_some]
      cases hs' : s'.run fns loadLimit ops with
      | none =>
        rw [hs'] at hrest
        dsimp only [Option.bind_none] at hrest ⊢
        rw [hrest]
        rfl
      | some last =>
        obtain ⟨answers, s''⟩ := last
        rw [hs'] at hrest
        obtain ⟨m'', t'', hruns, R''⟩ := hrest
        refine ⟨m'', t'', ?_, R''⟩
        rw [hruns, ok_bind]
        rfl

/-! ## Destruction -/

/-- The memory when the entries `ps` are freed. -/
def Memory.without (m : Memory K V) (freeValues : Bool) (ps : List Ptr) : Memory K V :=
  { m with
    live := fun p => m.live p && !decide (p ∈ ps)
    freedKeys := m.freedKeys ++ ps.map m.k
    freedValues := m.freedValues ++ if freeValues then ps.map m.v else [] }

theorem Memory.without_nil (m : Memory K V) (freeValues : Bool) : m.without freeValues [] = m := by
  unfold Memory.without
  cases freeValues <;> simp

theorem Memory.without_append (m : Memory K V) (freeValues : Bool) (A B : List Ptr) :
    (m.without freeValues A).without freeValues B = m.without freeValues (A ++ B) := by
  unfold Memory.without
  cases freeValues <;> simp [Bool.and_assoc]

theorem destroyLoop_spec (freeValues : Bool) : ∀ {ps : List Ptr} {e : Ptr} {m : Memory K V}
    {fuel : Nat}, Chain m.next e ps 0 → 0 ∉ ps → ps.Nodup → (∀ p ∈ ps, m.live p = true) →
    ps.length < fuel → destroyLoop freeValues fuel e m = .ok (m.without freeValues ps)
  | _, _, _, 0, _, _, _, _, hf => absurd hf (Nat.not_lt_zero _)
  | [], e, m, fuel + 1, hchain, _, _, _, _ => by
    have hend : ¬ e ≠ 0 := not_not.2 hchain
    unfold destroyLoop
    rw [if_neg hend, Memory.without_nil]
    rfl
  | p :: ps, e, m, fuel + 1, hchain, hzero, hnd, hlive, hf => by
    obtain ⟨rfl, hchain⟩ := hchain
    have he := hlive e List.mem_cons_self
    have he0 : e ≠ 0 := ne_of_mem_of_not_mem List.mem_cons_self hzero
    obtain ⟨hnot, hnd⟩ := List.nodup_cons.1 hnd
    have hmemory : (if freeValues = true then
        { m with
          live := Function.update m.live e false
          freedKeys := m.freedKeys ++ [m.k e]
          freedValues := m.freedValues ++ [m.v e] }
        else { m with
          live := Function.update m.live e false
          freedKeys := m.freedKeys ++ [m.k e] }) = m.without freeValues [e] := by
      have hupdate : Function.update m.live e false = fun p => m.live p && !decide (p ∈ [e]) := by
        funext p
        by_cases hp : p = e
        · rw [hp, Function.update_self]
          simp
        · rw [Function.update_of_ne hp]
          simp [hp]
      unfold Memory.without
      rw [hupdate]
      cases freeValues <;> simp
    have hlive' : ∀ p ∈ ps, (m.without freeValues [e]).live p = true := fun p hp => by
      have hpe : p ≠ e := ne_of_mem_of_not_mem hp hnot
      unfold Memory.without
      simp [hlive p (List.mem_cons_of_mem _ hp), hpe]
    have hchain' : Chain (m.without freeValues [e]).next (m.next e) ps 0 := hchain
    have hrest := destroyLoop_spec freeValues hchain'
      (fun hmem => hzero (List.mem_cons_of_mem _ hmem)) hnd hlive' (Nat.lt_of_succ_lt_succ hf)
    rw [Memory.without_append, List.singleton_append, ← hmemory] at hrest
    unfold destroyLoop Memory.free
    rw [if_pos he0, Memory.load_ok he, ok_bind, Memory.load_ok he, ok_bind, Memory.load_ok he,
      ok_bind]
    exact hrest

/-- **`hashtable_destroy`** frees every entry. -/
theorem Holds.destroy {rows : Nat → List Ptr} (H : Holds fns loadLimit m t rows nodes)
    (freeValues : Bool) :
    destroy freeValues m t = .ok (m.without freeValues (Buckets.rows t.tablelength rows)) := by
  have hrows : ∀ c ≤ t.tablelength, (List.range c).foldlM
      (fun m i => do destroyLoop freeValues (m.brk + 1) (← cell t.table i) m) m =
      .ok (m.without freeValues (Buckets.rows c rows)) := by
    intro c hc
    induction c with
    | zero => exact congrArg Except.ok (Memory.without_nil m freeValues).symm
    | succ c ih =>
      have hlt : c < t.tablelength := hc
      have hlive : ∀ p ∈ rows c, (m.without freeValues (Buckets.rows c rows)).live p = true := by
        intro p hp
        have hnot : p ∉ Buckets.rows c rows := fun hmem => by
          obtain ⟨j, hj, hpj⟩ := mem_rows.1 hmem
          exact notMem_other H.chained.nodup hlt hp (by omega) hj.ne hpj
        unfold Memory.without
        simp [H.row_live hlt hp, hnot]
      have hchain := H.chained.chain c hlt
      rw [H.chained.head_eq hlt rfl] at hchain
      have hloop := destroyLoop_spec freeValues (m := m.without freeValues (Buckets.rows c rows))
        hchain (H.chained.null c hlt) (nodup_row H.chained.nodup hlt) hlive (H.row_lt hlt)
      rw [List.range_succ, List.foldlM_append, ih (by omega), ok_bind, List.foldlM_cons,
        H.head hlt, ok_bind, Buckets.rows_succ, ← Memory.without_append]
      rw [show (m.without freeValues (Buckets.rows c rows)).brk = m.brk from rfl, hloop]
      rfl
  exact hrows t.tablelength le_rfl

/-! ## What the list keeps -/

/-- Every key that was taken is in the list, or it has been freed. -/
theorem Model.step_keys {op : Op K V} {answer : Answer V} {s' : Model K V}
    (h : s.step fns loadLimit op = some (answer, s')) :
    (s'.entries.map Prod.fst ++ s'.freed).Perm
      (op.takes.toList ++ (s.entries.map Prod.fst ++ s.freed)) := by
  cases op with
  | insert a k v =>
    dsimp only [Model.step] at h
    have hgrow : ((s.grow loadLimit a).entries.map Prod.fst ++ (s.grow loadLimit a).freed).Perm
        (s.entries.map Prod.fst ++ s.freed) := by
      unfold Model.grow
      split_ifs
      · exact ((List.reverse_perm _).map _).append_right _
      · exact List.Perm.refl _
    dsimp only [Op.takes]
    split_ifs at h with hfault hentry
    · obtain ⟨-, rfl⟩ := Prod.mk.inj (Option.some.inj h)
      rw [if_pos hentry]
      exact hgrow.cons k
    · obtain ⟨-, rfl⟩ := Prod.mk.inj (Option.some.inj h)
      rw [if_neg hentry]
      exact hgrow
  | search k =>
    obtain ⟨-, rfl⟩ := Prod.mk.inj (Option.some.inj h)
    exact List.Perm.refl _
  | remove k =>
    dsimp only [Model.step] at h
    cases he : s.find fns k with
    | none =>
      rw [he] at h
      obtain ⟨-, rfl⟩ := Prod.mk.inj (Option.some.inj h)
      exact List.Perm.refl _
    | some e =>
      rw [he] at h
      obtain ⟨-, rfl⟩ := Prod.mk.inj (Option.some.inj h)
      obtain ⟨hq, A, B, hsplit, hA⟩ := List.find?_eq_some_iff_append.1 he
      have hnot : ∀ e ∈ A, ¬ fns.eqfn k e.1 = true := fun e he => by simpa using hA e he
      have hB : (e :: B).eraseP (fun e => fns.eqfn k e.1) = B := List.eraseP_cons_of_pos hq
      dsimp only [Op.takes]
      rw [hsplit, List.eraseP_append_right _ hnot, hB]
      simp only [Option.toList_none, List.nil_append, List.map_append, List.map_cons,
        List.append_assoc, List.cons_append]
      refine List.Perm.append_left _ ?_
      rw [← List.append_assoc]
      exact List.perm_append_singleton _ _

theorem Model.run_keys (ops : List (Op K V)) : ∀ {s s' : Model K V} {answers : List (Answer V)},
    s.run fns loadLimit ops = some (answers, s') →
    (s'.entries.map Prod.fst ++ s'.freed).Perm
      (ops.filterMap Op.takes ++ (s.entries.map Prod.fst ++ s.freed)) := by
  induction ops with
  | nil =>
    intro s s' answers h
    obtain ⟨-, rfl⟩ := Prod.mk.inj (Option.some.inj h)
    exact List.Perm.refl _
  | cons op ops ih =>
    intro s s' answers h
    rw [Model.run] at h
    simp only [Option.bind_eq_bind, Option.bind_eq_some_iff] at h
    obtain ⟨⟨answer, s₁⟩, hstep, ⟨answers', s₂⟩, hrun, hret⟩ := h
    obtain ⟨-, rfl⟩ := Prod.mk.inj (Option.some.inj hret)
    have hkeys := (ih hrun).trans ((Model.step_keys hstep).append_left _)
    refine hkeys.trans ?_
    rw [List.filterMap_cons]
    cases op.takes with
    | none => exact List.Perm.refl _
    | some k => exact List.perm_middle

end

/-- **The table is a list of entries**, newest first: for every sequence of operations, with
whatever allocations failing, it answers what the list answers, which is turned round when the table
grows; and it reads memory that nothing was written to as soon as an insertion gets a larger array
by `realloc`, and not before. -/
theorem hashtable_refines {K V : Type} (fns : KeyFns K) (loadLimit : Nat → Nat) (minsize : Nat)
    (hsize : minsize ≤ 2 ^ 30) {m : Memory K V} (hm : Fresh m) (ops : List (Op K V)) :
    ∃ t, create loadLimit minsize true true = some t ∧ minsize < t.tablelength ∧
      Follows fns loadLimit (runOps fns loadLimit m t ops)
        (Model.run fns loadLimit ⟨[], t.primeindex, []⟩ ops) := by
  obtain ⟨t, hcreate, hlt, -, R⟩ := create_spec fns loadLimit hsize hm
  exact ⟨t, hcreate, hlt, R.run ops⟩

/-! ## A sample -/

/-- Numbers as keys. -/
def natKeys : KeyFns Nat where
  hashfn k := BitVec.ofNat 32 k
  eqfn k k' := decide (k = k')
  compat _ _ h := congrArg _ (of_decide_eq_true h)

def noEntries : Memory Nat Nat where
  live _ := false
  k _ := 0
  v _ := 0
  h _ := 0
  next _ := 0
  brk := 1
  freedKeys := []
  freedValues := []

theorem noEntries_fresh : Fresh noEntries := ⟨fun _ => rfl, Nat.one_pos, rfl, rfl⟩

/-- `ceil(size * max_load_factor)` -/
def ceilLoad (size : Nat) : Nat := (13 * size + 19) / 20

/-- The last insertion makes the table of 53 buckets grow, and turns the two entries of key 1
round. -/
def growingRun : List (Op Nat Nat) :=
  [.insert ⟨true, true, true⟩ 1 10, .insert ⟨true, true, true⟩ 1 11] ++
    (List.range 34).map (fun i => .insert ⟨true, true, true⟩ (i + 2) i) ++
    [.search 1, .remove 1, .search 1]

example : (Model.run natKeys ceilLoad ⟨[], 0, []⟩ growingRun).map
    (fun r => (r.2.primeindex, r.2.entries.filter (·.1 = 1), r.2.freed)) =
      some (1, [(1, 11)], [1]) := by decide +kernel

theorem hashtable_refines_sample :
    ∃ t, create ceilLoad 16 true true = some t ∧ 16 < t.tablelength ∧
      Follows natKeys ceilLoad (runOps natKeys ceilLoad noEntries t growingRun)
        (Model.run natKeys ceilLoad ⟨[], t.primeindex, []⟩ growingRun) :=
  hashtable_refines natKeys ceilLoad 16 (by decide) noEntries_fresh growingRun

/-- **A table that is destroyed** has freed every key that it took, each once, and every entry, and
on demand the values that it still had. -/
theorem destroy_frees {K V : Type} (fns : KeyFns K) (loadLimit : Nat → Nat) (minsize : Nat)
    (hsize : minsize ≤ 2 ^ 30) {m : Memory K V} (hm : Fresh m) (ops : List (Op K V))
    (freeValues : Bool) :
    ∃ t, create loadLimit minsize true true = some t ∧
      ∀ answers s, Model.run fns loadLimit ⟨[], t.primeindex, []⟩ ops = some (answers, s) →
        ∃ m₁ t₁ m₂, runOps fns loadLimit m t ops = .ok (answers, m₁, t₁) ∧
          destroy freeValues m₁ t₁ = .ok m₂ ∧ (∀ p, m₂.live p = false) ∧
          m₂.freedKeys.Perm (ops.filterMap Op.takes) ∧
          m₂.freedValues.Perm (if freeValues then s.entries.map Prod.snd else []) := by
  obtain ⟨t, hcreate, -, -, R⟩ := create_spec fns loadLimit hsize hm
  refine ⟨t, hcreate, fun answers s hmodel => ?_⟩
  have hrun := R.run ops
  rw [hmodel] at hrun
  obtain ⟨m₁, t₁, hrun, rows, nodes, H, hentries, -, -, hfreed, hvalues⟩ := hrun
  refine ⟨m₁, t₁, _, hrun, H.destroy freeValues, fun p => ?_, ?_, ?_⟩
  · show (m₁.live p && !decide (p ∈ Buckets.rows t₁.tablelength rows)) = false
    cases hp : m₁.live p with
    | false => rfl
    | true =>
      rw [decide_eq_true (H.perm.mem_iff.2 ((H.live p).1 hp))]
      rfl
  · have hkeys := Model.run_keys ops hmodel
    have hmap : (s.entries.map Prod.fst).Perm
        ((Buckets.rows t₁.tablelength rows).map m₁.k) := by
      rw [hentries, List.map_map]
      exact (H.perm.map _).symm
    have hall := (hmap.symm.append_left s.freed).trans (List.perm_append_comm.trans hkeys)
    rw [hfreed, List.map_nil, List.nil_append, List.append_nil] at hall
    exact hall
  · show (m₁.freedValues ++ _).Perm _
    rw [hvalues, List.nil_append, hentries, List.map_map]
    cases freeValues with
    | true => exact H.perm.map _
    | false => exact List.Perm.refl _

theorem destroy_frees_sample :
    ∃ t, create ceilLoad 16 true true = some t ∧
      ∀ answers s,
        Model.run natKeys ceilLoad ⟨[], t.primeindex, []⟩ growingRun = some (answers, s) →
        ∃ m₁ t₁ m₂, runOps natKeys ceilLoad noEntries t growingRun =
            .ok (answers, m₁, t₁) ∧
          destroy true m₁ t₁ = .ok m₂ ∧ (∀ p, m₂.live p = false) ∧
          m₂.freedKeys.Perm (growingRun.filterMap Op.takes) ∧
          m₂.freedValues.Perm (if true then s.entries.map Prod.snd else []) :=
  destroy_frees natKeys ceilLoad 16 (by decide) noEntries_fresh growingRun true

end Hashtable
