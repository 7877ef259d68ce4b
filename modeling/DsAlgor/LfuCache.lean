import Mathlib.Data.List.Basic
import Mathlib.Data.List.Nodup
import Mathlib.Tactic

/-!
# The cache with least frequently used keys

The class `LFUCache`. A `LinkedHashMap` is the list of its entries in the order of insertion, in
which `put` leaves a key where it is. The map and the capacity are static in the source: a fresh
cache is an empty map. A frequency is an `int`, whose increment wraps around.

`addCacheEntry` looks only at the size of the map before it makes room. In a full cache it makes
room for a key that is there already, and another key has to go (`evicts_for_cached`). What the
class promises holds in exactly those runs where this does not happen (`lfuCache_contract_iff`).
-/

namespace LFUCache

variable {D : Type}

abbrev Key := Int

/-- `Integer.MAX_VALUE`. -/
def maxValue : Int := 2 ^ 31 - 1

structure CacheEntry (D : Type) where
  data : D
  frequency : Int
  deriving DecidableEq

abbrev CacheMap (D : Type) := List (Key × CacheEntry D)

/-- `frequency++`. -/
def incr (frequency : Int) : Int := if frequency = maxValue then -2 ^ 31 else frequency + 1

namespace CacheMap

def keys (m : CacheMap D) : List Key := m.map Prod.fst

def get (m : CacheMap D) (key : Key) : Option (CacheEntry D) := (m.find? (·.1 = key)).map Prod.snd

def put (m : CacheMap D) (key : Key) (e : CacheEntry D) : CacheMap D :=
  if key ∈ keys m then m.map fun x => if x.1 = key then (key, e) else x else m ++ [(key, e)]

def remove (m : CacheMap D) (key : Key) : CacheMap D := m.filter (·.1 ≠ key)

end CacheMap

open CacheMap

def isFull (initialCapacity : Nat) (m : CacheMap D) : Bool := m.length = initialCapacity

/-- The body of the loop of `getLFUKey`: `key` and `minFreq`. -/
def getLFUKeyStep (s : Key × Int) (entry : Key × CacheEntry D) : Key × Int :=
  if s.2 > entry.2.frequency then (entry.1, entry.2.frequency) else s

def getLFUKey (m : CacheMap D) : Key := (m.foldl getLFUKeyStep (0, maxValue)).1

def addCacheEntry (initialCapacity : Nat) (m : CacheMap D) (key : Key) (data : D) : CacheMap D :=
  if !isFull initialCapacity m then put m key ⟨data, 0⟩
  else put (remove m (getLFUKey m)) key ⟨data, 0⟩

def getCacheEntry (m : CacheMap D) (key : Key) : Option D × CacheMap D :=
  match get m key with
  | some temp => (some temp.data, put m key { temp with frequency := incr temp.frequency })
  | none => (none, m)

inductive Op (D : Type) where
  | add (key : Key) (data : D)
  | get (key : Key)

def Op.run (c : Nat) (m : CacheMap D) : Op D → CacheMap D
  | .add key data => addCacheEntry c m key data
  | .get key => (getCacheEntry m key).2

/-! ## What is promised, and when it is kept -/

/-- An addition that removes no key but those in `gone`. -/
structure Adds (m m' : CacheMap D) (key : Key) (data : D) (gone : List Key) : Prop where
  added : ∃ e, get m' key = some e ∧ e.data = data
  kept : ∀ k ≠ key, k ∉ gone → get m' k = get m k
  gone : ∀ k ∈ gone, get m' k = none

/-- The contract of one operation on a cache of capacity `c`. -/
def Contract (c : Nat) (m : CacheMap D) (op : Op D) (m' : CacheMap D) : Prop :=
  m'.length ≤ c ∧
    match op with
    | .get _ => keys m' = keys m
    | .add key data =>
      if key ∈ keys m ∨ m.length < c then Adds m m' key data []
      else ∃ victim ∈ m, (∀ x ∈ m, victim.2.frequency ≤ x.2.frequency) ∧
        Adds m m' key data [victim.1]

/-- The key is the first one, in the order of insertion, of least frequency. -/
def LeastFirst (m : CacheMap D) (key : Key) : Prop :=
  ∃ A e B, m = A ++ (key, e) :: B ∧ (∀ x ∈ A, e.frequency < x.2.frequency) ∧
    ∀ x ∈ B, e.frequency ≤ x.2.frequency

/-- The addition of `key` to the full cache `m` does not go wrong. When all frequencies are
`Integer.MAX_VALUE`, the source makes room by removing the key `0`. -/
def Harmless (m : CacheMap D) (key : Key) : Prop :=
  if ∃ x ∈ m, x.2.frequency < maxValue then key ∈ keys m → LeastFirst m key
  else if key ∈ keys m then key = 0 ∨ 0 ∉ keys m else 0 ∈ keys m

def Spares (c : Nat) (m : CacheMap D) : Op D → Prop
  | .get _ => True
  | .add key _ => m.length = c → Harmless m key

/-- The operations meet the contract one after the other. -/
def Keeps (c : Nat) : CacheMap D → List (Op D) → Prop
  | _, [] => True
  | m, op :: ops => Contract c m op (op.run c m) ∧ Keeps c (op.run c m) ops

/-- No operation of the run goes wrong. -/
def Spared (c : Nat) : CacheMap D → List (Op D) → Prop
  | _, [] => True
  | m, op :: ops => Spares c m op ∧ Spared c (op.run c m) ops

/-! ## The map -/

section
variable {m : CacheMap D} {k key : Key} {e : CacheEntry D}

theorem get_eq_none : get m k = none ↔ k ∉ keys m := by
  unfold CacheMap.get keys
  rw [Option.map_eq_none_iff, List.find?_eq_none]
  simp only [decide_eq_true_eq, List.mem_map, not_exists, not_and]

theorem get_cons (x : Key × CacheEntry D) :
    get (x :: m) k = if x.1 = k then some x.2 else get m k := by
  unfold CacheMap.get
  rw [List.find?_cons]
  by_cases h : x.1 = k
  · simp [h]
  · simp [h]

theorem get_append (m₁ m₂ : CacheMap D) : get (m₁ ++ m₂) k = (get m₁ k).or (get m₂ k) := by
  induction m₁ with
  | nil => rfl
  | cons x m₁ ih =>
    rw [List.cons_append, get_cons, get_cons, ih]
    split_ifs <;> rfl

/-- The entry of a key replaced. -/
theorem get_replace : get (m.map fun x => if x.1 = key then (key, e) else x) k =
    if k = key then (get m k).map fun _ => e else get m k := by
  induction m with
  | nil => split_ifs <;> rfl
  | cons x m ih =>
    rw [List.map_cons, get_cons, get_cons, ih]
    by_cases hx : x.1 = key
    · rw [if_pos hx]
      by_cases hk : k = key
      · rw [if_pos hk, if_pos hk.symm, if_pos hk, if_pos (hx.trans hk.symm)]
        rfl
      · have hxk : ¬x.1 = k := fun h => hk (h.symm.trans hx)
        rw [if_neg (fun h => hk h.symm), if_neg hk, if_neg hk, if_neg hxk]
    · rw [if_neg hx]
      by_cases hk : k = key
      · have hxk : ¬x.1 = k := fun h => hx (h.trans hk)
        rw [if_neg hxk, if_pos hk, if_pos hk, if_neg hxk]
      · rw [if_neg hk, if_neg hk]

theorem get_put : get (put m key e) k = if k = key then some e else get m k := by
  unfold put
  split_ifs with hm hk hk
  · rw [get_replace, if_pos hk]
    cases hg : get m k with
    | none => exact absurd (hk ▸ hm) (get_eq_none.1 hg)
    | some e' => rfl
  · rw [get_replace, if_neg hk]
  · rw [get_append, get_cons, if_pos hk.symm, get_eq_none.2 (hk ▸ hm)]
    rfl
  · rw [get_append, get_cons, if_neg (fun h => hk h.symm)]
    cases get m k <;> rfl

theorem get_remove : get (remove m key) k = if k = key then none else get m k := by
  induction m with
  | nil => split_ifs <;> rfl
  | cons x m ih =>
    unfold remove at ih ⊢
    by_cases hx : x.1 = key
    · rw [List.filter_cons_of_neg (by simpa using hx), ih, get_cons]
      by_cases hk : k = key
      · rw [if_pos hk, if_pos hk]
      · have hxk : ¬x.1 = k := fun h => hk (h.symm.trans hx)
        rw [if_neg hk, if_neg hk, if_neg hxk]
    · rw [List.filter_cons_of_pos (by simpa using hx), get_cons, get_cons, ih]
      by_cases hk : k = key
      · have hxk : ¬x.1 = k := fun h => hx (h.trans hk)
        rw [if_pos hk, if_pos hk, if_neg hxk]
      · rw [if_neg hk, if_neg hk]

theorem keys_put : keys (put m key e) = if key ∈ keys m then keys m else keys m ++ [key] := by
  unfold put
  split_ifs with hm
  · unfold keys
    rw [List.map_map]
    refine List.map_congr_left fun x _ => ?_
    by_cases hx : x.1 = key
    · simp [hx]
    · simp [hx]
  · simp [keys]

theorem keys_remove : keys (remove m key) = (keys m).filter (· ≠ key) := by
  unfold keys remove
  rw [List.filter_map]
  rfl

theorem length_keys : (keys m).length = m.length := List.length_map _

end

/-! ## The key that has to go -/

section
variable {m : CacheMap D} {key : Key}

/-- The loop keeps what it has, or ends with the first entry of least frequency. -/
theorem getLFUKeyLoop_spec (m : CacheMap D) (s : Key × Int) :
    (m.foldl getLFUKeyStep s = s ∧ ∀ x ∈ m, s.2 ≤ x.2.frequency) ∨
      ∃ (A : CacheMap D) (k : Key) (e : CacheEntry D) (B : CacheMap D), m = A ++ (k, e) :: B ∧
        m.foldl getLFUKeyStep s = (k, e.frequency) ∧ e.frequency < s.2 ∧
          (∀ x ∈ A, e.frequency < x.2.frequency) ∧
          ∀ x ∈ B, e.frequency ≤ x.2.frequency := by
  induction m generalizing s with
  | nil => exact .inl ⟨rfl, nofun⟩
  | cons y m ih =>
    rw [List.foldl_cons]
    by_cases hy : s.2 > y.2.frequency
    · have hstep : getLFUKeyStep s y = (y.1, y.2.frequency) := if_pos hy
      rw [hstep]
      rcases ih (y.1, y.2.frequency) with ⟨hfold, hle⟩ | ⟨A, k, e, B, rfl, hfold, hlt, hA, hB⟩
      · exact .inr ⟨[], y.1, y.2, m, rfl, hfold, hy, nofun, hle⟩
      · refine .inr ⟨y :: A, k, e, B, rfl, hfold, hlt.trans hy, fun x hx => ?_, hB⟩
        rcases List.mem_cons.1 hx with rfl | hx
        · exact hlt
        · exact hA x hx
    · have hstep : getLFUKeyStep s y = s := if_neg hy
      rw [hstep]
      rcases ih s with ⟨hfold, hle⟩ | ⟨A, k, e, B, rfl, hfold, hlt, hA, hB⟩
      · refine .inl ⟨hfold, fun x hx => ?_⟩
        rcases List.mem_cons.1 hx with rfl | hx
        · exact not_lt.1 hy
        · exact hle x hx
      · refine .inr ⟨y :: A, k, e, B, rfl, hfold, hlt, fun x hx => ?_, hB⟩
        rcases List.mem_cons.1 hx with rfl | hx
        · exact hlt.trans_le (not_lt.1 hy)
        · exact hA x hx

/-- The first key of least frequency is unique. -/
theorem LeastFirst.unique {k : Key} (h : LeastFirst m key) (h' : LeastFirst m k) : key = k := by
  obtain ⟨A, e, B, rfl, hA, hB⟩ := h
  obtain ⟨A', e', B', heq, hA', hB'⟩ := h'
  rcases List.append_eq_append_iff.1 heq with ⟨C, rfl, hC⟩ | ⟨C, rfl, hC⟩
  · cases C with
    | nil => exact congrArg Prod.fst (List.cons.inj hC).1
    | cons y C =>
      -- the second one comes later, so it is smaller than the first
      obtain ⟨rfl, rfl⟩ := List.cons.inj hC
      have h1 := hA' (key, e) (by simp)
      have h2 := hB (k, e') (by simp)
      exact absurd h1 (not_lt.2 h2)
  · cases C with
    | nil => exact (congrArg Prod.fst (List.cons.inj hC).1).symm
    | cons y C =>
      obtain ⟨rfl, rfl⟩ := List.cons.inj hC
      have h1 := hA (k, e') (by simp)
      have h2 := hB' (key, e) (by simp)
      exact absurd h1 (not_lt.2 h2)

theorem getLFUKey_least (h : ∃ x ∈ m, x.2.frequency < maxValue) : LeastFirst m (getLFUKey m) := by
  obtain ⟨x, hx, hlt⟩ := h
  rcases getLFUKeyLoop_spec m (0, maxValue) with ⟨-, hle⟩ | ⟨A, k, e, B, hm, hfold, -, hA, hB⟩
  · exact absurd hlt (not_lt.2 (hle x hx))
  · refine ⟨A, e, B, ?_, hA, hB⟩
    unfold getLFUKey
    rw [hfold]
    exact hm

theorem getLFUKey_zero (h : ¬∃ x ∈ m, x.2.frequency < maxValue) : getLFUKey m = 0 := by
  rcases getLFUKeyLoop_spec m (0, maxValue) with ⟨hfold, -⟩ | ⟨A, k, e, B, hm, -, hlt, -, -⟩
  · unfold getLFUKey
    rw [hfold]
  · exact absurd ⟨(k, e), by simp [hm], hlt⟩ h

end

/-! ## One operation -/

/-- What holds of the map between two operations. -/
structure Inv (c : Nat) (m : CacheMap D) : Prop where
  nodup : (keys m).Nodup
  length : m.length ≤ c
  bound : ∀ x ∈ m, x.2.frequency ≤ maxValue

section
variable {c : Nat} {m : CacheMap D} {key : Key} {data : D}

theorem mem_keys {x : Key × CacheEntry D} (hx : x ∈ m) : x.1 ∈ keys m := List.mem_map_of_mem hx

theorem LeastFirst.mem (h : LeastFirst m key) :
    ∃ e, (key, e) ∈ m ∧ ∀ x ∈ m, e.frequency ≤ x.2.frequency := by
  obtain ⟨A, e, B, rfl, hA, hB⟩ := h
  refine ⟨e, by simp, fun x hx => ?_⟩
  rw [List.mem_append, List.mem_cons] at hx
  rcases hx with hx | rfl | hx
  · exact (hA x hx).le
  · exact le_rfl
  · exact hB x hx

variable {e : CacheEntry D}

theorem nodup_put (h : (keys m).Nodup) : (keys (put m key e)).Nodup := by
  rw [keys_put]
  split_ifs with hm
  · exact h
  · rw [List.nodup_append]
    refine ⟨h, List.nodup_singleton _, fun a ha b hb => ?_⟩
    rw [List.mem_singleton] at hb
    exact fun heq => hm (hb ▸ heq ▸ ha)

theorem nodup_remove (h : (keys m).Nodup) : (keys (remove m key)).Nodup := by
  rw [keys_remove]
  exact h.filter _

theorem length_put : (put m key e).length = if key ∈ keys m then m.length else m.length + 1 := by
  rw [← length_keys, keys_put]
  split_ifs
  · exact length_keys
  · rw [List.length_append, length_keys]
    rfl

theorem length_remove (h : (keys m).Nodup) :
    (remove m key).length = if key ∈ keys m then m.length - 1 else m.length := by
  rw [← length_keys, keys_remove]
  split_ifs with hm
  · have := List.Nodup.erase_eq_filter h key
    rw [← length_keys, ← List.length_erase_of_mem hm, this]
    congr 1
    refine List.filter_congr fun x _ => ?_
    by_cases hx : x = key
    · simp [hx]
    · simp [hx]
  · rw [List.filter_eq_self.2, length_keys]
    intro x hx
    simpa using fun heq : x = key => hm (heq ▸ hx)

theorem bound_put (h : ∀ x ∈ m, x.2.frequency ≤ maxValue) (he : e.frequency ≤ maxValue) :
    ∀ x ∈ put m key e, x.2.frequency ≤ maxValue := by
  intro x hx
  unfold put at hx
  split_ifs at hx with hm
  · obtain ⟨y, hy, rfl⟩ := List.mem_map.1 hx
    split_ifs
    · exact he
    · exact h y hy
  · rcases List.mem_append.1 hx with hx | hx
    · exact h x hx
    · rw [List.mem_singleton.1 hx]
      exact he

theorem bound_remove (h : ∀ x ∈ m, x.2.frequency ≤ maxValue) :
    ∀ x ∈ remove m key, x.2.frequency ≤ maxValue :=
  fun x hx => h x (List.mem_filter.1 hx).1

theorem incr_le {f : Int} (h : f ≤ maxValue) : incr f ≤ maxValue := by
  unfold incr maxValue at *
  split_ifs <;> omega

theorem mem_of_get (h : get m key = some e) : (key, e) ∈ m := by
  induction m with
  | nil => cases h
  | cons x m ih =>
    rw [get_cons] at h
    split_ifs at h with hx
    · cases h
      subst hx
      exact List.mem_cons_self
    · exact List.mem_cons_of_mem _ (ih h)

/-- A lookup removes nothing. -/
theorem Inv.get (h : Inv c m) (key : Key) : Inv c (getCacheEntry m key).2 ∧ keys
    (getCacheEntry m key).2 = keys m := by
  unfold getCacheEntry
  cases hg : CacheMap.get m key with
  | none => exact ⟨h, rfl⟩
  | some temp =>
    have hmem := mem_of_get hg
    have hkeys : keys (put m key { temp with frequency := incr temp.frequency }) = keys m := by
      rw [keys_put, if_pos (mem_keys hmem)]
    refine ⟨⟨nodup_put h.nodup, ?_, bound_put h.bound (incr_le (h.bound _ hmem))⟩, hkeys⟩
    dsimp only
    rw [← length_keys, hkeys, length_keys]
    exact h.length

theorem Inv.put (h : Inv c m) (he : e.frequency ≤ maxValue)
    (hroom : key ∈ keys m ∨ m.length < c) : Inv c (CacheMap.put m key e) := by
  refine ⟨nodup_put h.nodup, ?_, bound_put h.bound he⟩
  rw [length_put]
  split_ifs with hm
  · exact h.length
  · exact hroom.resolve_left hm

/-- A plain `put` adds the key and removes nothing. -/
theorem adds_put : Adds m (put m key ⟨data, 0⟩) key data [] := by
  refine ⟨⟨⟨data, 0⟩, ?_, rfl⟩, fun k hk _ => ?_, nofun⟩
  · rw [get_put, if_pos rfl]
  · rw [get_put, if_neg hk]

/-- What is left after a removal. -/
theorem get_add_full (k v : Key) :
    CacheMap.get (CacheMap.put (CacheMap.remove m v) key ⟨data, 0⟩) k = if k = key then some ⟨data,
      0⟩ else if k = v then none else CacheMap.get m k := by
  rw [get_put, get_remove]

/-- The key that the source removes is one of least frequency, if it is there at all. -/
theorem Inv.victim (h : Inv c m) (hv : getLFUKey m ∈ keys m) :
    ∃ e, (getLFUKey m, e) ∈ m ∧ ∀ x ∈ m, e.frequency ≤ x.2.frequency := by
  by_cases hlt : ∃ x ∈ m, x.2.frequency < maxValue
  · exact (getLFUKey_least hlt).mem
  · obtain ⟨y, hy, hkey⟩ := List.mem_map.1 hv
    refine ⟨y.2, by rw [← hkey]; exact hy, fun x hx => ?_⟩
    have hmax : maxValue ≤ x.2.frequency := by
      by_contra hx'
      exact hlt ⟨x, hx, not_le.1 hx'⟩
    exact (h.bound y hy).trans hmax

/-- What `addCacheEntry` does to a full cache meets the contract exactly when the right key goes. -/
theorem Inv.contract_full_iff (h : Inv c m) (hc : 1 ≤ c) (hfull : m.length = c) :
    Contract c m (.add key data) (CacheMap.put (CacheMap.remove m (getLFUKey m)) key ⟨data, 0⟩) ↔
      (if key ∈ keys m then getLFUKey m = key ∨ getLFUKey m ∉ keys m else getLFUKey m ∈
      keys m) := by
  have hlen : (CacheMap.put (CacheMap.remove m (getLFUKey m)) key
    (⟨data, 0⟩ : CacheEntry D)).length = if key ∈ keys (CacheMap.remove m (getLFUKey m)) then
    (CacheMap.remove m (getLFUKey m)).length else (CacheMap.remove m (getLFUKey m)).length + 1 :=
      length_put
  simp only [length_remove h.nodup, keys_remove, List.mem_filter] at hlen
  unfold Contract
  dsimp only
  by_cases hkey : key ∈ keys m
  · rw [if_pos (.inl hkey), if_pos hkey]
    constructor
    · intro ⟨_, hadds⟩
      by_contra hbad
      push Not at hbad
      have hkept := hadds.kept (getLFUKey m) hbad.1 List.not_mem_nil
      rw [get_add_full, if_neg hbad.1, if_pos rfl] at hkept
      exact get_eq_none.1 hkept.symm hbad.2
    · intro hgood
      refine ⟨?_, ⟨⟨data, 0⟩, ?_, rfl⟩, fun k hk _ => ?_, nofun⟩
      · rw [hlen]
        rcases hgood with hv | hv
        · rw [hv]
          simp only [ne_eq, not_true_eq_false, decide_false, Bool.false_eq_true, and_false,
            if_false, hkey, if_true]
          omega
        · have hne : key ≠ getLFUKey m := fun heq => hv (heq ▸ hkey)
          simp only [hv, hkey, hne, ne_eq, not_false_eq_true, decide_true, and_self,
            if_true, if_false]
          omega
      · rw [get_add_full, if_pos rfl]
      · rw [get_add_full, if_neg hk]
        split_ifs with hkv
        · rcases hgood with hv | hv
          · exact absurd (hkv.trans hv) hk
          · rw [hkv]
            exact (get_eq_none.2 hv).symm
        · rfl
  · have hroom : ¬(key ∈ keys m ∨ m.length < c) := by
      rintro (hm | hm)
      · exact hkey hm
      · omega
    rw [if_neg hroom, if_neg hkey]
    simp only [hkey, false_and, if_false] at hlen
    constructor
    · intro ⟨hle, _⟩
      by_contra hv
      rw [hlen, if_neg hv] at hle
      omega
    · intro hv
      obtain ⟨e, hmem, hleast⟩ := h.victim hv
      have hne : getLFUKey m ≠ key := fun heq => hkey (heq ▸ hv)
      refine ⟨?_, (getLFUKey m, e), hmem, hleast, ⟨⟨data, 0⟩, ?_, rfl⟩, fun k hk hgone => ?_,
        fun k hgone => ?_⟩
      · rw [hlen, if_pos hv]
        omega
      · rw [get_add_full, if_pos rfl]
      · rw [get_add_full, if_neg hk, if_neg (by simpa using hgone)]
      · rw [List.mem_singleton] at hgone
        rw [hgone, get_add_full, if_neg hne, if_pos rfl]

/-- The condition, in terms of the key that goes. -/
theorem harmless_iff : Harmless m key ↔
    (if key ∈ keys m then getLFUKey m = key ∨ getLFUKey m ∉ keys m else getLFUKey m ∈ keys m) := by
  unfold Harmless
  by_cases hlt : ∃ x ∈ m, x.2.frequency < maxValue
  · have hleast := getLFUKey_least hlt
    obtain ⟨e, hmem, -⟩ := hleast.mem
    have hv : getLFUKey m ∈ keys m := mem_keys hmem
    rw [if_pos hlt]
    split_ifs with hkey
    · constructor
      · intro h
        exact .inl (hleast.unique (h hkey))
      · rintro (h | h) _
        · rw [← h]
          exact hleast
        · exact absurd hv h
    · exact ⟨fun _ => hv, fun _ h => absurd h hkey⟩
  · rw [if_neg hlt, getLFUKey_zero hlt]
    split_ifs
    · rw [eq_comm]
    · exact Iff.rfl

theorem Inv.step_iff (h : Inv c m) (hc : 1 ≤ c) (op : Op D) : Contract c m op (op.run c m) ↔
    Spares c m op := by
  cases op with
  | get key =>
    obtain ⟨hinv, hkeys⟩ := h.get key
    exact ⟨fun _ => trivial, fun _ => ⟨hinv.length, hkeys⟩⟩
  | add key data =>
    unfold Op.run addCacheEntry isFull Spares
    dsimp only
    by_cases hfull : m.length = c
    · rw [if_neg (by simpa using hfull), h.contract_full_iff hc hfull, ← harmless_iff]
      exact ⟨fun hh _ => hh, fun hh => hh hfull⟩
    · have hlt : m.length < c := lt_of_le_of_ne h.length hfull
      rw [if_pos (by simpa using hfull)]
      refine ⟨fun _ heq => absurd heq hfull, fun _ => ⟨?_, ?_⟩⟩
      · have hzero : (0 : Int) ≤ maxValue := by decide
        exact (h.put hzero (.inr hlt)).length
      · dsimp only
        rw [if_pos (.inr hlt)]
        exact adds_put

theorem Inv.step (h : Inv c m) {op : Op D} (hlen : (op.run c m).length ≤ c) :
    Inv c (op.run c m) := by
  cases op with
  | get key => exact (h.get key).1
  | add key data =>
    have hzero : (0 : Int) ≤ maxValue := by decide
    refine ⟨?_, hlen, ?_⟩
    · unfold Op.run addCacheEntry
      split_ifs
      · exact nodup_put h.nodup
      · exact nodup_put (nodup_remove h.nodup)
    · unfold Op.run addCacheEntry
      split_ifs
      · exact bound_put h.bound hzero
      · exact bound_put (bound_remove h.bound) hzero

theorem Inv.run_iff (h : Inv c m) (hc : 1 ≤ c) (ops : List (Op D)) :
    Keeps c m ops ↔ Spared c m ops := by
  induction ops generalizing m with
  | nil => exact Iff.rfl
  | cons op ops ih =>
    have hstep := h.step_iff hc op
    constructor
    · intro ⟨hcontract, hkeeps⟩
      exact ⟨hstep.1 hcontract, (ih (h.step hcontract.1)).1 hkeeps⟩
    · intro ⟨hspares, hspared⟩
      have hcontract := hstep.2 hspares
      exact ⟨hcontract, (ih (h.step hcontract.1)).2 hspared⟩

end

/-- **The contract of the cache**: it is kept by the runs from a fresh cache in which no addition to
a full cache goes wrong, and by no others. -/
theorem lfuCache_contract_iff (c : Nat) (hc : 1 ≤ c) (ops : List (Op D)) :
    Keeps c [] ops ↔ Spared c [] ops :=
  Inv.run_iff (m := []) ⟨List.nodup_nil, Nat.zero_le _, nofun⟩ hc ops

theorem lfuCache_contract_iff_sample :
    Spared 1 [] [.add 1 'a', .get 1, .add 1 'b'] ∧ Keeps 1 [] [.add 1 'a', .get 1, .add 1 'b'] := by
  have h : Spared 1 [] [.add 1 'a', .get 1, .add 1 'b'] := by
    refine ⟨nofun, trivial, fun _ => ?_, trivial⟩
    unfold Harmless
    rw [if_pos ⟨(1, ⟨'a', 1⟩), List.mem_singleton.2 rfl, by decide⟩]
    intro _
    exact ⟨[], ⟨'a', 1⟩, [], rfl, nofun, nofun⟩
  exact ⟨h, (lfuCache_contract_iff 1 le_rfl _).2 h⟩

/-- Two keys in a cache for two; the second is added again, and the first one is gone. -/
theorem evicts_for_cached : ¬Keeps 2 [] [.add 1 'a', .add 2 'b', .add 2 'c'] := by
  intro h
  have hkept := h.2.2.1.2
  dsimp only at hkept
  rw [if_pos (.inl (by decide))] at hkept
  have := hkept.kept 1 (by decide) List.not_mem_nil
  cases this

end LFUCache
