import DsAlgor.Lib.Cursor
import DsAlgor.Rocksdb.Insert

/-!
# Iterators

The class `Iterator`, and insertions between its moves. It is a cursor over the set of the inserted
keys (`iterator_refines`); a loop from one end of the list to the other visits the keys in order,
with those that are inserted ahead of it meanwhile (`scan_visits`). `EstimateCount` counts the
nodes before the key that no taller one follows, each for the nodes that it stands for
(`estimateCount_eq`).
-/

namespace Rocksdb

open Cursor (Least Op)

section
variable {Key : Type} (cmp : Comparator Key) (l : SkipList Key)

/-! ## The class -/

/-- The loop of `FindLast`. -/
def findLastLoop : Nat → Ptr → Nat → Except Fault Ptr
  | 0, _, _ => .error .loop
  | fuel + 1, x, level =>
    match l.next x level with
    | none => if level = 0 then .ok x else findLastLoop fuel x (level - 1)
    | some n => findLastLoop fuel n level

def findLast : Except Fault Ptr := findLastLoop l (l.brk + l.maxHeight) 0 (l.maxHeight - 1)

structure Iterator where
  /-- `node_` -/
  node : Option Ptr

def Iterator.valid (it : Iterator) : Bool := it.node.isSome

/-- `assert(Valid())`, and the node. -/
def Iterator.get (it : Iterator) : Except Fault Ptr :=
  match it.node with
  | some n => .ok n
  | none => .error .assertion

def Iterator.key (it : Iterator) : Except Fault Key := do return l.key (← it.get)

def Iterator.next (it : Iterator) : Except Fault Iterator := do return ⟨l.next (← it.get) 0⟩

/-- `head_` becomes `nullptr`. -/
def notHead (x : Ptr) : Iterator := ⟨if x = 0 then none else some x⟩

def Iterator.prev (it : Iterator) : Except Fault Iterator := do
  let (x, _) ← findLessThan cmp l (l.key (← it.get)) l.prev
  return notHead x

def seek (target : Key) : Except Fault Iterator := do
  return ⟨← findGreaterOrEqual cmp l target⟩

def seekToFirst : Iterator := ⟨l.next 0 0⟩

def seekToLast : Except Fault Iterator := do return notHead (← findLast l)

/-- The loop of `EstimateCount`; `count` is a `uint64_t`. -/
def estimateCountLoop (kBranching : Nat) (key : Key) : Nat → Ptr → Nat → Nat → Except Fault Nat
  | 0, _, _, _ => .error .loop
  | fuel + 1, x, level, count => do
    check (x = 0 || cmp.compare (l.key x) key < 0)
    match l.next x level with
    | none =>
      if level = 0 then return count
      else estimateCountLoop kBranching key fuel x (level - 1) (count * kBranching % 2 ^ 64)
    | some n =>
      if cmp.compare (l.key n) key ≥ 0 then
        if level = 0 then return count
        else estimateCountLoop kBranching key fuel x (level - 1) (count * kBranching % 2 ^ 64)
      else estimateCountLoop kBranching key fuel n level ((count + 1) % 2 ^ 64)

def estimateCount (kBranching : Nat) (key : Key) : Except Fault Nat :=
  estimateCountLoop cmp l kBranching key (l.brk + l.maxHeight) 0 (l.maxHeight - 1) 0

/-! ## Insertions and moves -/

structure State (Key : Type) where
  list : SkipList Key
  it : Iterator

/-- An insertion or a move, with the height that `RandomHeight` gave for an insertion. -/
def step (s : State Key) (op : Op Key × Nat) : Except Fault (State Key) :=
  match op.1 with
  | .insert key => do return { s with list := ← insert cmp s.list key op.2 }
  | .seekToFirst => .ok { s with it := seekToFirst s.list }
  | .seekToLast => do return { s with it := ← seekToLast s.list }
  | .seek target => do return { s with it := ← seek cmp s.list target }
  | .next => do return { s with it := ← s.it.next s.list }
  | .prev => do return { s with it := ← s.it.prev cmp s.list }

def runOps (s : State Key) (ops : List (Op Key × Nat)) : Except Fault (State Key) :=
  ops.foldlM (step cmp) s

inductive Direction
  | forward
  | backward

def Direction.start : Direction → Except Fault Iterator
  | .forward => .ok (seekToFirst l)
  | .backward => seekToLast l

def Direction.move : Direction → Iterator → Except Fault Iterator
  | .forward, it => it.next l
  | .backward, it => it.prev cmp l

/-- `while (iter.Valid())`: the visit of an entry inserts what the next list says. -/
def scanLoop (d : Direction) : Nat → SkipList Key → Iterator → List (List (Key × Nat)) →
    Except Fault (List Key)
  | 0, _, _, _ => .error .loop
  | fuel + 1, l, it, batches =>
    if it.valid then do
      let k ← it.key l
      let l ← run cmp l (batches.headD [])
      let it ← d.move cmp l it
      let ks ← scanLoop d fuel l it batches.tail
      return k :: ks
    else .ok []

/-- The loop from `SeekToFirst` with `Next`, or from `SeekToLast` with `Prev`: the visited keys. -/
def scan (d : Direction) (batches : List (List (Key × Nat))) : Except Fault (List Key) := do
  scanLoop cmp d (l.brk + batches.flatten.length) l (← d.start l) batches

end

/-! ## Positions -/

def Comparator.lt {Key : Type} (cmp : Comparator Key) (a b : Key) : Prop := cmp.compare a b < 0

instance {Key : Type} (cmp : Comparator Key) : IsStrictTotalOrder Key cmp.lt where
  irrefl a h := absurd h ((cmp.compare_eq a a).2 rfl).not_lt
  trans := cmp.compare_trans
  trichotomous a b hab hba := by
    have hle : cmp.compare a b ≤ 0 := not_lt.1 fun h => hba ((cmp.compare_pos a b).1 h)
    exact (cmp.compare_eq a b).1 (le_antisymm hle (not_lt.1 hab))

section
variable {Key : Type} {cmp : Comparator Key} {l : SkipList Key} {S A B C : List (Node Key)}
  {n : Node Key} {i : Nat} {key : Key} {d : Direction}

def keys (S : List (Node Key)) : List Key := S.map Node.key

/-- The node `p` has the key `o`, or there is none. -/
def At (S : List (Node Key)) (p : Option Ptr) (o : Option Key) : Prop :=
  ∃ n : Option (Node Key), (∀ m ∈ n, m ∈ S) ∧ p = n.map Node.ptr ∧ o = n.map Node.key

/-- What was inserted: the keys and the heights. -/
def entries (S : List (Node Key)) : List (Key × Nat) := S.map fun n => (n.key, n.height)

theorem entries_keys (S : List (Node Key)) : (entries S).map Prod.fst = keys S := by
  unfold entries keys
  rw [List.map_map]
  rfl

theorem Linked.keys_sorted (h : Linked cmp l S) : (keys S).Pairwise cmp.lt :=
  List.pairwise_map.2 h.sorted

theorem Linked.parts_sorted (h : Linked cmp l (A ++ B)) :
    (keys A).Pairwise cmp.lt ∧ (keys B).Pairwise cmp.lt :=
  have hparts := List.pairwise_append.1 h.sorted
  ⟨List.pairwise_map.2 hparts.1, List.pairwise_map.2 hparts.2.1⟩

theorem Linked.firstAt_zero (h : Linked cmp l (A ++ B)) : firstAt B 0 = B.head?.map Node.ptr := by
  cases B with
  | nil => rfl
  | cons n B => exact firstAt_cons (h.height n (by simp)).1

theorem Linked.notHead_lastAt (h : Linked cmp l (A ++ B)) :
    notHead (lastAt A 0) = ⟨A.getLast?.map Node.ptr⟩ := by
  unfold notHead
  cases List.eq_nil_or_concat A with
  | inl hnil =>
    rw [hnil]
    rfl
  | inr hlast =>
    obtain ⟨A, n, rfl⟩ := hlast
    rw [List.concat_eq_append] at h ⊢
    rw [lastAt_concat (h.height n (by simp)).1, if_neg (h.bound n (by simp)).1.ne']
    simp

/-- The first node behind a place. -/
theorem at_head (A B : List (Node Key)) :
    At (A ++ B) (B.head?.map Node.ptr) ((keys B).head?) :=
  ⟨B.head?, fun _ hm => List.mem_append_right A (List.mem_of_head? hm), rfl, List.head?_map⟩

/-- The last node before a place. -/
theorem at_last (A B : List (Node Key)) :
    At (A ++ B) (A.getLast?.map Node.ptr) ((keys A).getLast?) :=
  ⟨A.getLast?, fun _ hm => List.mem_append_left B (List.mem_of_getLast? hm), rfl,
    List.getLast?_map⟩

theorem At.mono {T : List (Node Key)} {p : Option Ptr} {o : Option Key} (h : At S p o)
    (hsub : ∀ n ∈ S, n ∈ T) : At T p o := by
  obtain ⟨n, hn, hp, ho⟩ := h
  exact ⟨n, fun m hm => hsub m (hn m hm), hp, ho⟩

/-! ## Moves -/

theorem findLastLoop_spec (h : Linked cmp l S) :
    ∀ (fuel i : Nat) {A₁ A₂ : List (Node Key)}, S = A₁ ++ A₂ → Ends A₁ i → A₂.length + i < fuel →
      findLastLoop l fuel (lastAt A₁ i) i = .ok (lastAt S 0)
  | 0, i, _, _, _, _, hfuel => absurd hfuel (Nat.not_lt_zero _)
  | fuel + 1, i, A₁, A₂, hS, hends, hfuel => by
    have hsplit : Linked cmp l (A₁ ++ A₂ ++ []) := by rwa [List.append_nil, ← hS]
    rw [findLastLoop]
    cases hsplit.next_cases i with
    | inl hlow =>
      obtain ⟨-, hnext, hlast⟩ := hlow
      have hnone : l.next (lastAt A₁ i) i = none := hnext
      rw [hnone]
      cases i with
      | zero => rw [hS, hlast, if_pos rfl]
      | succ i =>
        have hrest := findLastLoop_spec h fuel i hS (hends.mono (Nat.le_succ i)) (by omega)
        rw [hends.lastAt_eq (Nat.le_succ i)] at hrest
        rw [if_neg (Nat.succ_ne_zero i)]
        exact hrest
    | inr hright =>
      obtain ⟨C, n, D, hA₂, hn, hnext⟩ := hright
      have hS' : S = (A₁ ++ C ++ [n]) ++ D := by simp [hS, hA₂]
      have hlen : D.length + i < fuel := by
        rw [hA₂, List.length_append, List.length_cons] at hfuel
        omega
      have hrest := findLastLoop_spec h fuel i hS' (.inr ⟨A₁ ++ C, n, rfl, hn⟩) hlen
      rw [lastAt_concat hn] at hrest
      rw [hnext]
      exact hrest

/-- **`FindLast`**. -/
theorem findLast_spec (h : Linked cmp l S) : findLast l = .ok (lastAt S 0) := by
  have hlevel := h.level
  have hlen := h.length
  exact findLastLoop_spec h _ _ (List.nil_append S).symm (.inl rfl) (by omega)

theorem seekToFirst_spec (h : Linked cmp l S) :
    ∃ o, At S (seekToFirst l).node o ∧ Least cmp.lt (· ∈ keys S) o := by
  have hnext : (seekToFirst l).node = S.head?.map Node.ptr :=
    (h.next 0 [] S rfl).trans (h.firstAt_zero (A := []))
  rw [hnext]
  exact ⟨_, at_head [] S, Cursor.least_head h.keys_sorted⟩

theorem seekToLast_spec (h : Linked cmp l S) :
    ∃ it o, seekToLast l = .ok it ∧ At S it.node o ∧
      Least (Function.swap cmp.lt) (· ∈ keys S) o := by
  have hnil : Linked cmp l (S ++ []) := by rwa [List.append_nil]
  refine ⟨⟨S.getLast?.map Node.ptr⟩, (keys S).getLast?, ?_, ?_,
    Cursor.least_getLast h.keys_sorted⟩
  · unfold seekToLast
    rw [findLast_spec h, ← hnil.notHead_lastAt]
    rfl
  · exact (at_last S []).mono fun n hn => by rwa [List.append_nil] at hn

/-- The keys behind a place. -/
theorem Between.mem_behind (hkey : Between cmp key A B) (a : Key) :
    a ∈ keys B ↔ a ∈ keys (A ++ B) ∧ ¬ cmp.lt a key := by
  unfold keys
  rw [List.map_append, List.mem_append]
  constructor
  · intro ha
    obtain ⟨n, hn, rfl⟩ := List.mem_map.1 ha
    exact ⟨.inr ha, hkey.behind n hn⟩
  · rintro ⟨ha | ha, hlt⟩
    · obtain ⟨n, hn, rfl⟩ := List.mem_map.1 ha
      exact absurd (hkey.before n hn) hlt
    · exact ha

/-- The keys before a place. -/
theorem Between.mem_before (hkey : Between cmp key A B) (a : Key) :
    a ∈ keys A ↔ a ∈ keys (A ++ B) ∧ cmp.lt a key := by
  unfold keys
  rw [List.map_append, List.mem_append]
  constructor
  · intro ha
    obtain ⟨n, hn, rfl⟩ := List.mem_map.1 ha
    exact ⟨.inl ha, hkey.before n hn⟩
  · rintro ⟨ha | ha, hlt⟩
    · exact ha
    · obtain ⟨n, hn, rfl⟩ := List.mem_map.1 ha
      exact absurd hlt (hkey.behind n hn)

theorem seek_spec (h : Linked cmp l S) (target : Key) :
    ∃ it o, seek cmp l target = .ok it ∧ At S it.node o ∧
      Least cmp.lt (fun a => a ∈ keys S ∧ ¬ cmp.lt a target) o := by
  obtain ⟨A, B, rfl, hkey⟩ := h.between target
  refine ⟨⟨B.head?.map Node.ptr⟩, _, ?_, at_head A B,
    (Cursor.least_head h.parts_sorted.2).congr hkey.mem_behind⟩
  unfold seek
  rw [findGreaterOrEqual_spec hkey h, h.firstAt_zero]
  rfl

/-- The list around a node. -/
theorem Linked.around (h : Linked cmp l (A ++ n :: B)) :
    Between cmp n.key A (n :: B) ∧
      (∀ a, a ∈ keys B ↔ a ∈ keys (A ++ n :: B) ∧ cmp.lt n.key a) ∧
      ∀ a, a ∈ keys A ↔ a ∈ keys (A ++ n :: B) ∧ cmp.lt a n.key := by
  have hsorted := h.keys_sorted
  unfold keys at hsorted ⊢
  rw [List.map_append, List.map_cons] at hsorted ⊢
  refine ⟨⟨fun m hm => ?_, fun m hm => ?_⟩, Cursor.mem_above hsorted, Cursor.mem_below hsorted⟩
  · exact ((Cursor.mem_below hsorted m.key).1 (List.mem_map_of_mem hm)).2
  · cases List.mem_cons.1 hm with
    | inl heq => exact heq ▸ irrefl_of cmp.lt n.key
    | inr hmem =>
      exact asymm_of cmp.lt ((Cursor.mem_above hsorted m.key).1 (List.mem_map_of_mem hmem)).2

theorem next_spec (h : Linked cmp l S) (hn : n ∈ S) :
    ∃ it o, Iterator.next l ⟨some n.ptr⟩ = .ok it ∧ At S it.node o ∧
      Least cmp.lt (fun a => a ∈ keys S ∧ cmp.lt n.key a) o := by
  obtain ⟨A, B, rfl⟩ := List.append_of_mem hn
  obtain ⟨-, habove, -⟩ := h.around
  have hsplit : A ++ n :: B = (A ++ [n]) ++ B := by rw [List.append_assoc, List.singleton_append]
  have h' : Linked cmp l ((A ++ [n]) ++ B) := hsplit ▸ h
  refine ⟨⟨B.head?.map Node.ptr⟩, _, ?_, hsplit ▸ at_head (A ++ [n]) B,
    (Cursor.least_head h'.parts_sorted.2).congr habove⟩
  have hnext := h.next 0 (A ++ [n]) B hsplit
  rw [lastAt_concat (h.height n hn).1, h'.firstAt_zero] at hnext
  rw [← hnext]
  rfl

theorem prev_spec (h : Linked cmp l S) (hn : n ∈ S) :
    ∃ it o, Iterator.prev cmp l ⟨some n.ptr⟩ = .ok it ∧ At S it.node o ∧
      Least (Function.swap cmp.lt) (fun a => a ∈ keys S ∧ cmp.lt a n.key) o := by
  obtain ⟨A, B, rfl⟩ := List.append_of_mem hn
  obtain ⟨hplace, -, hbelow⟩ := h.around
  refine ⟨⟨A.getLast?.map Node.ptr⟩, _, ?_, at_last A (n :: B),
    (Cursor.least_getLast h.parts_sorted.1).congr hbelow⟩
  obtain ⟨prev', hrun, -⟩ := findLessThan_spec hplace h l.prev
  rw [← h.notHead_lastAt]
  unfold Iterator.prev Iterator.get
  simp only [bind, Except.bind, h.key n hn, hrun]
  rfl

/-! ## Insertions between the moves -/

theorem insert_keeps (h : Linked cmp l S) (hcached : Cached l S) (hfresh : key ∉ keys S)
    {height : Nat} (hheight : 1 ≤ height) :
    ∃ l' S', insert cmp l key height = .ok l' ∧ Linked cmp l' S' ∧ Cached l' S' ∧
      S'.Perm (⟨l.brk, key, height⟩ :: S) ∧ l'.brk = l.brk + 1 := by
  obtain ⟨A, B, rfl, hplace⟩ := h.between key
  have hne : ∀ n ∈ A ++ B, n.key ≠ key := fun n hn heq => hfresh (heq ▸ List.mem_map_of_mem hn)
  obtain ⟨l', hins, hlinked, hcached', hbrk, -⟩ := insert_spec hplace h hcached hne hheight
  exact ⟨l', _, hins, hlinked, hcached', List.perm_middle, hbrk⟩

/-- The list and the iterator stand for the set and the position. -/
def Simulates (cmp : Comparator Key) (s : State Key) (a : Cursor.State Key) : Prop :=
  ∃ S, Linked cmp s.list S ∧ Cached s.list S ∧ a.keys = {k | k ∈ keys S} ∧ At S s.it.node a.pos

variable {s : State Key} {a : Cursor.State Key}

/-- A position is nowhere, or at a node. -/
theorem At.cases {p : Option Ptr} {o : Option Key} (h : At S p o) :
    (p = none ∧ o = none) ∨ ∃ n ∈ S, p = some n.ptr ∧ o = some n.key := by
  obtain ⟨n, hn, hp, ho⟩ := h
  cases n with
  | none => exact .inl ⟨hp, ho⟩
  | some n => exact .inr ⟨n, hn n rfl, hp, ho⟩

/-- A move from the position, or its assert. -/
theorem Simulates.move {f : Iterator → Except Fault Iterator} {op : Op Key}
    {P : Key → Option Key → Prop} (h : Simulates cmp s a)
    (hfail : f ⟨none⟩ = .error .assertion)
    (hmove : ∀ S, Linked cmp s.list S → a.keys = {k | k ∈ keys S} → ∀ n ∈ S,
      ∃ it o, f ⟨some n.ptr⟩ = .ok it ∧ At S it.node o ∧ P n.key o)
    (hstep : ∀ k o, a.pos = some k → P k o → Cursor.Step cmp.lt a op ⟨a.keys, o⟩)
    (hop : op.Moves) :
    (∃ it a', f s.it = .ok it ∧ Cursor.Step cmp.lt a op a' ∧ Simulates cmp { s with it := it } a') ∨
      (op.Moves ∧ a.pos = none ∧ f s.it = .error .assertion) := by
  obtain ⟨S, hlinked, hcached, hkeys, hat⟩ := h
  cases hat.cases with
  | inl hnone =>
    have hit : s.it = ⟨none⟩ := congrArg Iterator.mk hnone.1
    exact .inr ⟨hop, hnone.2, hit ▸ hfail⟩
  | inr hsome =>
    obtain ⟨n, hn, hp, ho⟩ := hsome
    have hit : s.it = ⟨some n.ptr⟩ := congrArg Iterator.mk hp
    obtain ⟨it, o, hrun, hat', hleast⟩ := hmove S hlinked hkeys n hn
    exact .inl ⟨it, ⟨a.keys, o⟩, hit ▸ hrun, hstep n.key o ho hleast,
      S, hlinked, hcached, hkeys, hat'⟩

/-- **A step** of the list and its iterator is one of the cursor, or an assert fails. -/
theorem Simulates.step (h : Simulates cmp s a) (op : Op Key × Nat)
    (hop : ∀ key, op.1 = .insert key → key ∉ a.keys ∧ 1 ≤ op.2) :
    (∃ s' a', Rocksdb.step cmp s op = .ok s' ∧ Cursor.Step cmp.lt a op.1 a' ∧
      Simulates cmp s' a') ∨
      (op.1.Moves ∧ a.pos = none ∧ Rocksdb.step cmp s op = .error .assertion) := by
  obtain ⟨op, height⟩ := op
  have hh := h
  obtain ⟨S, hlinked, hcached, hkeys, hat⟩ := hh
  cases op with
  | insert key =>
    obtain ⟨hfresh, hheight⟩ := hop key rfl
    obtain ⟨l', S', hins, hlinked', hcached', hperm, -⟩ :=
      insert_keeps hlinked hcached (by rwa [hkeys] at hfresh) hheight
    refine .inl ⟨{ s with list := l' }, ⟨Insert.insert key a.keys, a.pos⟩, ?_, .insert hfresh,
      S', hlinked', hcached', ?_, ?_⟩
    · simp only [Rocksdb.step, hins]
      rfl
    · ext k
      rw [hkeys]
      show k = key ∨ k ∈ keys S ↔ k ∈ keys S'
      unfold keys
      rw [(hperm.map Node.key).mem_iff, List.map_cons, List.mem_cons]
    · exact hat.mono fun n hn => hperm.symm.subset (List.mem_cons_of_mem _ hn)
  | seekToFirst =>
    obtain ⟨o, hat', hleast⟩ := seekToFirst_spec hlinked
    exact .inl ⟨_, ⟨a.keys, o⟩, rfl, .seekToFirst (by rwa [hkeys]), S, hlinked, hcached, hkeys,
      hat'⟩
  | seekToLast =>
    obtain ⟨it, o, hrun, hat', hleast⟩ := seekToLast_spec hlinked
    refine .inl ⟨{ s with it := it }, ⟨a.keys, o⟩, ?_, .seekToLast (by rwa [hkeys]), S, hlinked,
      hcached, hkeys, hat'⟩
    simp only [Rocksdb.step, hrun]
    rfl
  | seek target =>
    obtain ⟨it, o, hrun, hat', hleast⟩ := seek_spec hlinked target
    refine .inl ⟨{ s with it := it }, ⟨a.keys, o⟩, ?_, .seek (by rwa [hkeys]), S, hlinked, hcached,
      hkeys, hat'⟩
    simp only [Rocksdb.step, hrun]
    rfl
  | next =>
    have hmove := h.move (f := Iterator.next s.list)
      (P := fun k o => Least cmp.lt (fun b => b ∈ a.keys ∧ cmp.lt k b) o) rfl
      (fun S hlinked hkeys n hn => hkeys ▸ next_spec hlinked hn) (fun k o => .next)
      Op.Moves.next
    rcases hmove with ⟨it, a', hrun, hrest⟩ | ⟨hmoves, hnone, hrun⟩
    · refine .inl ⟨{ s with it := it }, a', ?_, hrest⟩
      simp only [Rocksdb.step, hrun]
      rfl
    · refine .inr ⟨hmoves, hnone, ?_⟩
      simp only [Rocksdb.step, hrun]
      rfl
  | prev =>
    have hmove := h.move (f := Iterator.prev cmp s.list)
      (P := fun k o => Least (Function.swap cmp.lt) (fun b => b ∈ a.keys ∧ cmp.lt b k) o) rfl
      (fun S hlinked hkeys n hn => hkeys ▸ prev_spec hlinked hn) (fun k o => .prev)
      Op.Moves.prev
    rcases hmove with ⟨it, a', hrun, hrest⟩ | ⟨hmoves, hnone, hrun⟩
    · refine .inl ⟨{ s with it := it }, a', ?_, hrest⟩
      simp only [Rocksdb.step, hrun]
      rfl
    · refine .inr ⟨hmoves, hnone, ?_⟩
      simp only [Rocksdb.step, hrun]
      rfl

/-! ## Runs -/

theorem runOps_concat (s : State Key) (ops : List (Op Key × Nat)) (op : Op Key × Nat) :
    runOps cmp s (ops ++ [op]) = (do Rocksdb.step cmp (← runOps cmp s ops) op) := by
  unfold runOps
  rw [List.foldlM_append]
  refine congrArg _ (funext fun s' => ?_)
  rw [List.foldlM_cons]
  exact bind_pure _

/-- The keys that are inserted. -/
def insertedKeys (ops : List (Op Key × Nat)) : List Key := (ops.map Prod.fst).filterMap Op.key

/-- An iterator is moved that is nowhere. -/
def Misuse (cmp : Comparator Key) (ops : List (Op Key × Nat)) : Prop :=
  ∃ before op after a, ops = before ++ op :: after ∧ op.1.Moves ∧
    Cursor.Run cmp.lt ⟨∅, none⟩ (before.map Prod.fst) a ∧ a.pos = none

theorem new_simulates (any : Key) : Simulates cmp ⟨.new any, ⟨none⟩⟩ ⟨∅, none⟩ :=
  ⟨[], new_linked any, .inl ⟨rfl, rfl, rfl, rfl⟩, by ext; simp [keys], none, nofun, rfl, rfl⟩

theorem runOps_simulates (any : Key) (ops : List (Op Key × Nat)) (hkeys : (insertedKeys ops).Nodup)
    (hheights : ∀ key height, (Op.insert key, height) ∈ ops → 1 ≤ height) :
    (∃ s a, runOps cmp ⟨.new any, ⟨none⟩⟩ ops = .ok s ∧
      Cursor.Run cmp.lt ⟨∅, none⟩ (ops.map Prod.fst) a ∧ Simulates cmp s a) ∨
      (Misuse cmp ops ∧ runOps cmp ⟨.new any, ⟨none⟩⟩ ops = .error .assertion) := by
  induction ops using List.reverseRecOn with
  | nil => exact .inl ⟨_, _, rfl, .nil, new_simulates any⟩
  | append_singleton ops op ih =>
    have hsplit : insertedKeys (ops ++ [op]) = insertedKeys ops ++ op.1.key.toList := by
      unfold insertedKeys
      rw [List.map_append, List.filterMap_append]
      cases h : op.1.key <;> simp [h]
    rw [hsplit, List.nodup_append] at hkeys
    rw [runOps_concat, List.map_append]
    rcases ih hkeys.1 (fun key height hop => hheights key height (List.mem_append_left _ hop))
      with ⟨s, a, hrun, habs, hsim⟩ | ⟨hmisuse, hrun⟩
    · have hop : ∀ key, op.1 = .insert key → key ∉ a.keys ∧ 1 ≤ op.2 := by
        intro key heq
        refine ⟨fun hmem => ?_, hheights key op.2 ?_⟩
        · have hin : key ∈ insertedKeys ops :=
            ((habs.keys key).1 hmem).resolve_left (Set.notMem_empty key)
          exact hkeys.2.2 key hin key (by rw [heq]; exact List.mem_singleton_self key) rfl
        · rw [← heq]
          exact List.mem_append_right _ (List.mem_singleton_self op)
      rw [hrun]
      rcases hsim.step op hop with ⟨s', a', hstep, habs', hsim'⟩ | ⟨hmoves, hnone, hstep⟩
      · exact .inl ⟨s', a', hstep, habs.concat habs', hsim'⟩
      · exact .inr ⟨⟨ops, op, [], a, rfl, hmoves, habs, hnone⟩, hstep⟩
    · obtain ⟨before, op', after, a, hops, hmoves, habs, hnone⟩ := hmisuse
      refine .inr ⟨⟨before, op', after ++ [op], a, ?_, hmoves, habs, hnone⟩, ?_⟩
      · rw [hops, List.append_assoc, List.cons_append]
      · rw [hrun]
        rfl

/-- What is seen of the position. -/
theorem Simulates.observe (h : Simulates cmp s a) :
    s.it.valid = a.pos.isSome ∧ ∀ key, a.pos = some key → s.it.key s.list = .ok key := by
  obtain ⟨S, hlinked, -, -, hat⟩ := h
  unfold Iterator.valid Iterator.key Iterator.get
  rcases hat.cases with ⟨hp, ho⟩ | ⟨n, hn, hp, ho⟩
  · rw [hp, ho]
    exact ⟨rfl, fun key hkey => by cases hkey⟩
  · rw [hp, ho]
    refine ⟨rfl, fun key hkey => ?_⟩
    rw [← Option.some.inj hkey, ← hlinked.key n hn]
    rfl

end

section
variable {Key : Type} {cmp : Comparator Key} {l : SkipList Key} {S : List (Node Key)}
  {n : Node Key}

/-- The order in which a loop goes. -/
def Direction.rel (cmp : Comparator Key) : Direction → Key → Key → Prop
  | .forward => cmp.lt
  | .backward => Function.swap cmp.lt

instance (d : Direction) : IsStrictTotalOrder Key (d.rel cmp) := by
  cases d with
  | forward => exact inferInstanceAs (IsStrictTotalOrder Key cmp.lt)
  | backward => exact inferInstanceAs (IsStrictTotalOrder Key (Function.swap cmp.lt))

instance (d : Direction) : DecidableRel (d.rel cmp) := fun a b =>
  match d with
  | .forward => inferInstanceAs (Decidable (cmp.compare a b < 0))
  | .backward => inferInstanceAs (Decidable (cmp.compare b a < 0))

theorem Direction.start_spec (d : Direction) (h : Linked cmp l S) :
    ∃ it o, d.start l = .ok it ∧ At S it.node o ∧ Least (d.rel cmp) (· ∈ keys S) o := by
  cases d with
  | forward =>
    obtain ⟨o, hat, hleast⟩ := seekToFirst_spec h
    exact ⟨_, o, rfl, hat, hleast⟩
  | backward => exact seekToLast_spec h

theorem Direction.move_spec (d : Direction) (h : Linked cmp l S) (hn : n ∈ S) :
    ∃ it o, d.move cmp l ⟨some n.ptr⟩ = .ok it ∧ At S it.node o ∧
      Least (d.rel cmp) (fun a => a ∈ keys S ∧ d.rel cmp n.key a) o := by
  cases d with
  | forward => exact next_spec h hn
  | backward => exact prev_spec h hn

theorem run_keeps (ops : List (Key × Nat)) :
    ∀ {l : SkipList Key} {S : List (Node Key)}, Linked cmp l S → Cached l S →
      (keys S ++ ops.map Prod.fst).Nodup → (∀ op ∈ ops, 1 ≤ op.2) →
      ∃ l' S', run cmp l ops = .ok l' ∧ Linked cmp l' S' ∧ Cached l' S' ∧ (∀ n ∈ S, n ∈ S') ∧
        (entries S').Perm (entries S ++ ops) := by
  induction ops with
  | nil =>
    intro l S h hcached _ _
    exact ⟨l, S, rfl, h, hcached, fun n hn => hn, by rw [List.append_nil]⟩
  | cons op ops ih =>
    intro l S h hcached hnodup hheights
    have hfresh : op.1 ∉ keys S := fun hmem =>
      (List.nodup_append.1 hnodup).2.2 op.1 hmem op.1 (by simp) rfl
    obtain ⟨l₁, S₁, hins, hlinked, hcached₁, hperm, -⟩ :=
      insert_keeps h hcached hfresh (hheights op List.mem_cons_self)
    have hall : (entries S₁ ++ ops).Perm (entries S ++ op :: ops) :=
      ((hperm.map _).append_right ops).trans List.perm_middle.symm
    have hkeys := hall.map Prod.fst
    rw [List.map_append, List.map_append, entries_keys, entries_keys] at hkeys
    obtain ⟨l', S', hrun, hlinked', hcached', hsub, hperm'⟩ := ih hlinked hcached₁
      (hkeys.nodup_iff.2 hnodup) fun op hop => hheights op (List.mem_cons_of_mem _ hop)
    refine ⟨l', S', ?_, hlinked', hcached', fun n hn => ?_, hperm'.trans hall⟩
    · unfold run at hrun ⊢
      rw [List.foldlM_cons, hins]
      exact hrun
    · exact hsub n (hperm.symm.subset (List.mem_cons_of_mem _ hn))

theorem keys_perm {S S' : List (Node Key)} {ops : List (Key × Nat)}
    (h : (entries S').Perm (entries S ++ ops)) : (keys S').Perm (keys S ++ ops.map Prod.fst) := by
  have hkeys := h.map Prod.fst
  rwa [List.map_append, entries_keys, entries_keys] at hkeys

/-- **The loop** does not run out of rounds. -/
theorem scanLoop_spec (d : Direction) :
    ∀ (fuel : Nat) {l : SkipList Key} {S : List (Node Key)} {it : Iterator} {o : Option Key}
      (batches : List (List (Key × Nat))), Linked cmp l S → Cached l S → At S it.node o →
      (keys S ++ batches.flatten.map Prod.fst).Nodup → (∀ op ∈ batches.flatten, 1 ≤ op.2) →
      Cursor.ahead (d.rel cmp) (keys S) o + batches.flatten.length < fuel →
      ∃ ks, scanLoop cmp d fuel l it batches = .ok ks ∧
        Cursor.Scan (d.rel cmp) {k | k ∈ keys S} o (batches.map (·.map Prod.fst)) ks
  | 0, _, _, _, _, _, _, _, _, _, _, hfuel => absurd hfuel (Nat.not_lt_zero _)
  | fuel + 1, l, S, it, o, batches, h, hcached, hat, hnodup, hheights, hfuel => by
    rw [scanLoop]
    rcases hat.cases with ⟨hp, rfl⟩ | ⟨n, hn, hp, rfl⟩
    · have hvalid : ¬ it.valid = true := by
        rw [Iterator.valid, hp]
        exact Bool.false_ne_true
      rw [if_neg hvalid]
      exact ⟨[], rfl, .done⟩
    · obtain rfl : it = ⟨some n.ptr⟩ := congrArg Iterator.mk hp
      have hkey : Iterator.key l ⟨some n.ptr⟩ = .ok n.key := by
        rw [← h.key n hn]
        rfl
      have hflat : batches.flatten = batches.headD [] ++ batches.tail.flatten := by
        cases batches <;> rfl
      rw [hflat, List.map_append, ← List.append_assoc] at hnodup
      rw [hflat, List.length_append] at hfuel
      obtain ⟨l', S', hrun, hlinked, hcached', hsub, hperm⟩ := run_keeps (batches.headD []) h
        hcached (List.nodup_append.1 hnodup).1 fun op hop =>
          hheights op (hflat ▸ List.mem_append_left _ hop)
      have hkeys := keys_perm hperm
      obtain ⟨it', o', hmove, hat', hleast⟩ := d.move_spec hlinked (hsub n hn)
      -- the keys that came in ahead are among those that are counted
      have hahead : Cursor.ahead (d.rel cmp) (keys S') o' ≤
          (keys S').countP (d.rel cmp n.key ·) :=
        Cursor.ahead_le (hleast.congr fun a => by rw [decide_eq_true_eq]) fun a b ha hab =>
          decide_eq_true (trans_of (d.rel cmp) (of_decide_eq_true ha) hab)
      have hcount : (keys S').countP (d.rel cmp n.key ·) ≤
          (keys S).countP (d.rel cmp n.key ·) + (batches.headD []).length := by
        rw [hkeys.countP_eq, List.countP_append]
        have := List.countP_le_length (l := (batches.headD []).map Prod.fst)
          (p := fun a => decide (d.rel cmp n.key a))
        rw [List.length_map] at this
        omega
      obtain ⟨ks, hloop, hscan⟩ := scanLoop_spec d fuel batches.tail hlinked hcached' hat'
        ((hkeys.append_right _).nodup_iff.2 hnodup)
        (fun op hop => hheights op (hflat ▸ List.mem_append_right _ hop))
        (by unfold Cursor.ahead at hfuel; dsimp only at hfuel; omega)
      have hvalid : Iterator.valid ⟨some n.ptr⟩ = true := rfl
      refine ⟨n.key :: ks, ?_, .visit (fun a => ?_) hleast ?_⟩
      · rw [if_pos hvalid]
        simp only [hkey, bind, Except.bind, hrun, hmove, hloop]
        rfl
      · show a ∈ keys S' ↔ a ∈ keys S ∨ _
        rw [hkeys.mem_iff, List.mem_append]
        cases batches <;> rfl
      · rw [← List.map_tail]
        exact hscan

end

/-- **A loop over the list** visits, each key once and in order, the keys that were there when it
began and those that were inserted ahead of the key it was visiting. -/
theorem scan_visits {Key : Type} (cmp : Comparator Key) (any : Key) (d : Direction)
    (ops : List (Key × Nat)) (batches : List (List (Key × Nat)))
    (hkeys : ((ops ++ batches.flatten).map Prod.fst).Nodup)
    (hheights : ∀ op ∈ ops ++ batches.flatten, 1 ≤ op.2) :
    ∃ l ks, run cmp (.new any) ops = .ok l ∧ scan cmp l d batches = .ok ks ∧
      ks.Pairwise (d.rel cmp) ∧
      ∀ key, key ∈ ks ↔ key ∈ ops.map Prod.fst ∨ ∃ (i : Nat) (k : Key) (batch : List (Key × Nat)),
        ks[i]? = some k ∧ batches[i]? = some batch ∧ key ∈ batch.map Prod.fst ∧
          d.rel cmp k key := by
  rw [List.map_append] at hkeys
  obtain ⟨l, S, hrun, hlinked, hcached, -, hentries⟩ := run_keeps ops (new_linked  any)
    (.inl ⟨rfl, rfl, rfl, rfl⟩) (List.nodup_append.1 hkeys).1
    fun op hop => hheights op (List.mem_append_left _ hop)
  have hperm : (keys S).Perm (ops.map Prod.fst) := keys_perm hentries
  obtain ⟨it, o, hstart, hat, hleast⟩ := d.start_spec hlinked
  have htrue : Least (d.rel cmp) (fun a => a ∈ keys S ∧ (fun _ => true) a = true) o :=
    hleast.congr fun a => (and_iff_left rfl).symm
  have hahead := Cursor.ahead_le htrue fun _ _ _ _ => rfl
  have hlen := hlinked.length
  have hcount := List.countP_le_length (l := keys S) (p := fun _ => true)
  unfold keys at hahead hcount
  rw [List.length_map] at hcount
  obtain ⟨ks, hloop, hscan⟩ := scanLoop_spec d (l.brk + batches.flatten.length) batches hlinked
    hcached hat ((hperm.append_right _).nodup_iff.2 hkeys)
    (fun op hop => hheights op (List.mem_append_right _ hop)) (by unfold keys; omega)
  refine ⟨l, ks, hrun, ?_, hscan.pairwise, fun key => ?_⟩
  · unfold scan
    rw [hstart]
    exact hloop
  · have hmem := hscan.mem_iff (F := fun _ => True)
      (hleast.congr fun a => (and_iff_left trivial).symm) (fun _ _ _ _ => trivial) key
    rw [hmem, and_true]
    refine or_congr hperm.mem_iff ⟨?_, ?_⟩
    · rintro ⟨i, k, b, hk, hb, hin, hlt⟩
      rw [List.getElem?_map, Option.map_eq_some_iff] at hb
      obtain ⟨batch, hbatch, rfl⟩ := hb
      exact ⟨i, k, batch, hk, hbatch, hin, hlt⟩
    · rintro ⟨i, k, batch, hk, hbatch, hin, hlt⟩
      refine ⟨i, k, batch.map Prod.fst, hk, ?_, hin, hlt⟩
      rw [List.getElem?_map, hbatch]
      rfl

/-- Forward, with a key that comes in ahead of the loop and one that comes in behind it. -/
theorem scan_visits_sample :
    ∃ (l : SkipList Int) (ks : List Int),
      run intComparator (.new 0) [(5, 3), (1, 1), (9, 2)] = .ok l ∧
      scan intComparator l .forward [[], [(3, 1), (7, 2)]] = .ok ks ∧
      ks.Pairwise (Direction.forward.rel intComparator) ∧
      ∀ key, key ∈ ks ↔ key ∈ [(5, 3), (1, 1), (9, 2)].map Prod.fst ∨
        ∃ (i : Nat) (k : Int) (batch : List (Int × Nat)), ks[i]? = some k ∧
          [[], [(3, 1), (7, 2)]][i]? = some batch ∧ key ∈ batch.map Prod.fst ∧
          Direction.forward.rel intComparator k key :=
  scan_visits intComparator 0 .forward [(5, 3), (1, 1), (9, 2)] [[], [(3, 1), (7, 2)]] (by decide)
    (by decide)

/-! ## `EstimateCount` -/

section
variable {Key : Type} {cmp : Comparator Key} {l : SkipList Key} {A B : List (Node Key)} {key : Key}

/-- The nodes that no taller one follows, each with the number of nodes that it stands for. -/
def estimate (kBranching : Nat) : List (Node Key) → Nat
  | [] => 0
  | n :: A =>
    (if ∀ m ∈ A, m.height ≤ n.height then kBranching ^ (n.height - 1) else 0) +
      estimate kBranching A

/-- Nodes that a taller one follows do not count. -/
theorem estimate_low {b i : Nat} {n : Node Key} {C D : List (Node Key)}
    (hlow : ∀ m ∈ C, m.height ≤ i) (hn : i < n.height) :
    estimate b (C ++ n :: D) = estimate b (n :: D) := by
  induction C with
  | nil => rfl
  | cons c C ih =>
    have hc := hlow c List.mem_cons_self
    have hnot : ¬ ∀ m ∈ C ++ n :: D, m.height ≤ c.height := fun hall => by
      have := hall n (by simp)
      omega
    rw [List.cons_append, estimate, if_neg hnot, Nat.zero_add]
    exact ih fun m hm => hlow m (List.mem_cons_of_mem _ hm)

theorem estimate_flat {b : Nat} (h : ∀ n ∈ A, n.height = 1) : estimate b A = A.length := by
  induction A with
  | nil => rfl
  | cons n A ih =>
    have hA : ∀ m ∈ A, m.height = 1 := fun m hm => h m (List.mem_cons_of_mem _ hm)
    have hn : n.height = 1 := h n List.mem_cons_self
    rw [estimate, if_pos fun m hm => by rw [hA m hm, hn], hn, ih hA, List.length_cons, pow_zero,
      Nat.add_comm]

/-- The search goes down: no node before the key is left on the level. -/
theorem estimateCountLoop_down (hkey : Between cmp key A B) (h : Linked cmp l (A ++ B))
    {b fuel i count : Nat} {x : Ptr}
    (hcheck : (decide (x = 0) || decide (cmp.compare (l.key x) key < 0)) = true)
    (hnext : l.next x i = firstAt B i) :
    estimateCountLoop cmp l b key (fuel + 1) x i count =
      if i = 0 then .ok count
      else estimateCountLoop cmp l b key fuel x (i - 1) (count * b % 2 ^ 64) := by
  rw [estimateCountLoop]
  simp only [hnext, hcheck, check, if_true, bind, Except.bind]
  cases hf : firstAt B i with
  | none => rfl
  | some p =>
    obtain ⟨n, hn, hp⟩ := firstAt_mem hf
    have hge : cmp.compare (l.key p) key ≥ 0 := by
      rw [← hp, h.key n (List.mem_append_right A hn)]
      exact not_lt.1 (hkey.behind n hn)
    simp only [if_pos hge]
    rfl

theorem estimateCountLoop_right (hkey : Between cmp key A B) (h : Linked cmp l (A ++ B))
    {b fuel i count : Nat} {x : Ptr} {n : Node Key}
    (hcheck : (decide (x = 0) || decide (cmp.compare (l.key x) key < 0)) = true)
    (hn : n ∈ A) (hnext : l.next x i = some n.ptr) :
    estimateCountLoop cmp l b key (fuel + 1) x i count =
      estimateCountLoop cmp l b key fuel n.ptr i ((count + 1) % 2 ^ 64) := by
  have hlt := hkey.before n hn
  rw [← h.key n (List.mem_append_left B hn)] at hlt
  rw [estimateCountLoop]
  simp only [hnext, hcheck, check, if_true, bind, Except.bind]
  rw [if_neg (not_le.2 hlt)]

theorem estimateCountLoop_spec (hkey : Between cmp key A B) (h : Linked cmp l (A ++ B)) (b : Nat) :
    ∀ (fuel i count : Nat) {A₁ A₂ : List (Node Key)}, A = A₁ ++ A₂ → Ends A₁ i →
      (∀ n ∈ A₂, n.height ≤ i + 1) → count < 2 ^ 64 → A₂.length + i < fuel →
      estimateCountLoop cmp l b key fuel (lastAt A₁ i) i count =
        .ok ((count * b ^ i + estimate b A₂) % 2 ^ 64)
  | 0, _, _, _, _, _, _, _, _, hfuel => absurd hfuel (Nat.not_lt_zero _)
  | fuel + 1, i, count, A₁, A₂, hA, hends, htop, hcount, hfuel => by
    have hcheck : (decide (lastAt A₁ i = 0) ||
        decide (cmp.compare (l.key (lastAt A₁ i)) key < 0)) = true := by
      rw [Bool.or_eq_true, decide_eq_true_eq, decide_eq_true_eq]
      cases lastAt_mem (A := A₁) (i := i) with
      | inl h0 => exact .inl h0
      | inr hmem =>
        obtain ⟨n, hn, hp⟩ := hmem
        have hnA : n ∈ A := hA ▸ List.mem_append_left A₂ hn
        rw [← hp, h.key n (List.mem_append_left B hnA)]
        exact .inr (hkey.before n hnA)
    have hnext := h.next i A₁ (A₂ ++ B) (by rw [hA, List.append_assoc])
    cases split_first A₂ i with
    | inl hlow =>
      rw [firstAt_low hlow] at hnext
      rw [estimateCountLoop_down hkey h hcheck hnext]
      cases i with
      | zero =>
        -- every node has a level
        have hnil : A₂ = [] := List.eq_nil_iff_forall_not_mem.2 fun n hn => by
          have hheight := (h.height n (List.mem_append_left B (hA ▸ List.mem_append_right A₁ hn))).1
          have := hlow n hn
          omega
        rw [if_pos rfl, hnil, estimate, pow_zero, Nat.mul_one, Nat.add_zero,
          Nat.mod_eq_of_lt hcount]
      | succ i =>
        have hrest := estimateCountLoop_spec hkey h b fuel i (count * b % 2 ^ 64) hA
          (hends.mono (Nat.le_succ i)) hlow (Nat.mod_lt _ (Nat.two_pow_pos 64)) (by omega)
        rw [hends.lastAt_eq (Nat.le_succ i)] at hrest
        have hpow : count * b ^ (i + 1) = count * b * b ^ i := by rw [pow_succ', Nat.mul_assoc]
        rw [if_neg (Nat.succ_ne_zero i), Nat.add_sub_cancel, hrest, hpow]
        exact congrArg _ (((Nat.mod_modEq _ _).mul_right _).add_right _)
    | inr hsplit =>
      obtain ⟨C, n, D, rfl, hlow, hn⟩ := hsplit
      rw [List.append_assoc, firstAt_low hlow, List.cons_append, firstAt_cons hn] at hnext
      have hmem : n ∈ A := by simp [hA]
      have hheight : n.height = i + 1 := le_antisymm (htop n (by simp)) hn
      have hD : ∀ m ∈ D, m.height ≤ i + 1 := fun m hm => htop m (by simp [hm])
      have hlen : D.length + i < fuel := by
        rw [List.length_append, List.length_cons] at hfuel
        omega
      have hA' : A = (A₁ ++ C ++ [n]) ++ D := by simp [hA]
      have hrest := estimateCountLoop_spec hkey h b fuel i ((count + 1) % 2 ^ 64) hA'
        (.inr ⟨A₁ ++ C, n, rfl, hn⟩) hD (Nat.mod_lt _ (Nat.two_pow_pos 64)) hlen
      rw [lastAt_concat hn] at hrest
      rw [estimateCountLoop_right hkey h hcheck hmem hnext, hrest, estimate_low hlow hn, estimate,
        hheight, if_pos hD, Nat.add_sub_cancel, ← Nat.add_assoc, ← Nat.succ_mul]
      exact congrArg _ (((Nat.mod_modEq _ _).mul_right _).add_right _)

/-- **`EstimateCount`**, on the nodes before the key. -/
theorem estimateCount_spec (hkey : Between cmp key A B) (h : Linked cmp l (A ++ B)) (b : Nat) :
    estimateCount cmp l b key = .ok (estimate b A % 2 ^ 64) := by
  have hlevel := h.level
  have hlen := h.length
  rw [List.length_append] at hlen
  have htop : ∀ n ∈ A, n.height ≤ l.maxHeight - 1 + 1 := fun n hn => by
    have := (h.height n (List.mem_append_left B hn)).2
    omega
  have hloop := estimateCountLoop_spec hkey h b (l.brk + l.maxHeight) (l.maxHeight - 1) 0
    (List.nil_append A).symm (.inl rfl) htop (Nat.two_pow_pos 64) (by omega)
  rw [Nat.zero_mul, Nat.zero_add] at hloop
  exact hloop

end

/-- **`EstimateCount`** after any insertions of different keys: of the nodes with a smaller key,
those that no taller one follows count, each for `kBranching` nodes on every level below its
highest. It is the exact number where no node has a second level. -/
theorem estimateCount_eq {Key : Type} (cmp : Comparator Key) (any : Key) (kBranching : Nat)
    (ops : List (Key × Nat)) (hkeys : (ops.map Prod.fst).Nodup) (hheights : ∀ op ∈ ops, 1 ≤ op.2)
    (key : Key) :
    ∃ (l : SkipList Key) (A B : List (Node Key)), run cmp (.new any) ops = .ok l ∧
      (entries (A ++ B)).Perm ops ∧ (keys (A ++ B)).Pairwise cmp.lt ∧
      (∀ k, k ∈ keys A ↔ k ∈ ops.map Prod.fst ∧ cmp.lt k key) ∧
      estimateCount cmp l kBranching key = .ok (estimate kBranching A % 2 ^ 64) ∧
      ((∀ op ∈ ops, op.2 = 1) → estimate kBranching A = A.length) := by
  obtain ⟨l, S, hrun, hlinked, -, -, hentries⟩ := run_keeps ops (new_linked any)
    (.inl ⟨rfl, rfl, rfl, rfl⟩) hkeys hheights
  have hperm : (keys S).Perm (ops.map Prod.fst) := keys_perm hentries
  obtain ⟨A, B, rfl, hplace⟩ := hlinked.between key
  refine ⟨l, A, B, hrun, hentries, hlinked.keys_sorted, fun k => ?_,
    estimateCount_spec hplace hlinked kBranching, fun hone => ?_⟩
  · rw [← hperm.mem_iff]
    exact hplace.mem_before k
  · refine estimate_flat fun n hn => ?_
    have hmem : (n.key, n.height) ∈ entries (A ++ B) :=
      List.mem_map_of_mem (List.mem_append_left B hn)
    exact hone _ (hentries.mem_iff.1 hmem)

/-- The node of height 3 hides the two nodes before it. -/
theorem estimateCount_sample :
    ∃ (l : SkipList Int) (A B : List (Node Int)),
      run intComparator (.new 0) [(1, 1), (2, 2), (3, 3), (4, 1), (8, 5)] = .ok l ∧
      (entries (A ++ B)).Perm [(1, 1), (2, 2), (3, 3), (4, 1), (8, 5)] ∧
      (keys (A ++ B)).Pairwise intComparator.lt ∧
      (∀ k, k ∈ keys A ↔ k ∈ [(1, 1), (2, 2), (3, 3), (4, 1), (8, 5)].map Prod.fst ∧
        intComparator.lt k 6) ∧
      estimateCount intComparator l 4 6 = .ok (estimate 4 A % 2 ^ 64) ∧
      ((∀ op ∈ [((1 : Int), 1), (2, 2), (3, 3), (4, 1), (8, 5)], op.2 = 1) →
        estimate 4 A = A.length) :=
  estimateCount_eq intComparator 0 4 [(1, 1), (2, 2), (3, 3), (4, 1), (8, 5)] (by decide)
    (by decide) 6

end Rocksdb
