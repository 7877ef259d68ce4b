import DsAlgor.Class8.MajorityNum2
import Mathlib.Data.List.AList

/-!
# The majority number for any `k`

`majorityNumber` and `removeKey` of `majority_num3.java`. A `HashMap` is an association list without
double keys, and `Iteration` is the order in which its key set is gone through, which can be any.
The entries are a bag (`weight`), and `removeKey` cancels each key once. No count is greater than
the number of elements of the `ArrayList`, which is an `int`.
-/

namespace MajorityNum3

open Majority
open Signed (intMax)

abbrev Map := AList fun _ : Int => Nat

/-- The order of a key set. -/
structure Iteration where
  keySet : List Int → List Int
  perm : ∀ keys, (keySet keys).Perm keys

/-- `map.get(key)` -/
def weight (map : Map) (key : Int) : Nat := (map.lookup key).getD 0

/-- The body of the first loop of `removeKey`: the map and `removeList`. -/
def decrement (s : Map × List Int) (key : Int) : Map × List Int :=
  if weight s.1 key = 1 then (s.1, s.2 ++ [key])
  else (s.1.insert key (weight s.1 key - 1), s.2)

def removeKey (it : Iteration) (map : Map) : Map :=
  let s := (it.keySet map.keys).foldl decrement (map, [])
  s.2.foldl (fun map key => map.erase key) s.1

/-- The body of the first loop. -/
def visit (it : Iteration) (k : Nat) (map : Map) (i : Int) : Map :=
  let map := if map.lookup i = none then map.insert i 1 else map.insert i (weight map i + 1)
  if map.keys.length ≥ k then removeKey it map else map

/-- The inner loop over `nums`. -/
def occurrences (nums : List Int) (i : Int) : Nat :=
  nums.foldl (fun count j => if i = j then count + 1 else count) 0

/-- The body of the last loop: `max` and `maxKey`. -/
def choose (nums : List Int) (s : Nat × Int) (i : Int) : Nat × Int :=
  if occurrences nums i > s.1 then (occurrences nums i, i) else s

def majorityNumber (it : Iteration) (nums : List Int) (k : Nat) : Int :=
  let map := nums.foldl (visit it k) ∅
  if map.keys.length = 0 then -2 ^ 31
  else ((it.keySet map.keys).foldl (choose nums) (0, 0)).2

/-! ## The map -/

section
variable {it : Iteration} {map : Map} {s : Map × List Int} {keys nums : List Int} {key v i : Int}
  {n k : Nat}

@[simp] theorem weight_insert : weight (map.insert key n) v =
    if v = key then n else weight map v := by
  by_cases h : v = key
  · rw [if_pos h, h, weight, AList.lookup_insert, Option.getD_some]
  · rw [if_neg h, weight, AList.lookup_insert_ne h, weight]

theorem weight_erase : weight (map.erase key) v = if v = key then 0 else weight map v := by
  by_cases h : v = key
  · rw [if_pos h, h, weight, AList.lookup_erase, Option.getD_none]
  · rw [if_neg h, weight, AList.lookup_erase_ne h, weight]

/-- No entry is 0. -/
def Positive (map : Map) : Prop := ∀ v, v ∈ map ↔ 0 < weight map v

theorem weight_decrement : weight (decrement s key).1 v =
    if v = key ∧ weight s.1 v ≠ 1 then weight s.1 v - 1 else weight s.1 v := by
  unfold decrement
  split_ifs with h1 h2 h2
  · exact absurd (h2.1 ▸ h1) h2.2
  · rfl
  · rw [weight_insert, if_pos h2.1, h2.1]
  · rw [weight_insert, if_neg fun heq => h2 ⟨heq, heq ▸ h1⟩]

theorem mem_decrement (h : key ∈ s.1) : v ∈ (decrement s key).1 ↔ v ∈ s.1 := by
  unfold decrement
  split_ifs
  · exact Iff.rfl
  · rw [AList.mem_insert]
    exact ⟨fun hv => hv.elim (fun heq => heq ▸ h) id, .inr⟩

theorem mem_removeList : v ∈ (decrement s key).2 ↔ v ∈ s.2 ∨ v = key ∧ weight s.1 v = 1 := by
  unfold decrement
  split_ifs with h1
  · rw [List.mem_append, List.mem_singleton]
    exact or_congr_right ⟨fun hv => ⟨hv, hv ▸ h1⟩, And.left⟩
  · exact ⟨.inl, fun hv => hv.elim id fun hv => absurd (hv.1 ▸ hv.2) h1⟩

/-- Each key is treated once. -/
structure Decremented (s : Map × List Int) (keys : List Int) (r : Map × List Int) : Prop where
  weight : ∀ v, weight r.1 v =
    if v ∈ keys ∧ weight s.1 v ≠ 1 then weight s.1 v - 1 else weight s.1 v
  mem : ∀ v, v ∈ r.1 ↔ v ∈ s.1
  removeList : ∀ v, v ∈ r.2 ↔ v ∈ s.2 ∨ v ∈ keys ∧ MajorityNum3.weight s.1 v = 1

theorem decrement_run (hnodup : keys.Nodup) (hkeys : ∀ v ∈ keys, v ∈ s.1) :
    Decremented s keys (keys.foldl decrement s) := by
  induction keys generalizing s with
  | nil => exact ⟨fun v => by simp, fun v => Iff.rfl, fun v => by simp⟩
  | cons key keys ih =>
    obtain ⟨hkey, hnodup⟩ := List.nodup_cons.1 hnodup
    have hin := hkeys key List.mem_cons_self
    have hrest := ih (s := decrement s key) hnodup fun v hv =>
      (mem_decrement hin).2 (hkeys v (List.mem_cons_of_mem key hv))
    refine ⟨fun v => ?_, fun v => ?_, fun v => ?_⟩
    · rw [List.foldl_cons, hrest.weight, weight_decrement]
      grind
    · rw [List.foldl_cons, hrest.mem, mem_decrement hin]
    · rw [List.foldl_cons, hrest.removeList, mem_removeList, weight_decrement]
      grind

theorem weight_remove : weight (keys.foldl (fun map key => map.erase key) map) v =
    if v ∈ keys then 0 else weight map v := by
  induction keys generalizing map with
  | nil => rfl
  | cons key keys ih =>
    rw [List.foldl_cons, ih, weight_erase]
    grind

theorem mem_remove : v ∈ keys.foldl (fun map key => map.erase key) map ↔ v ∈ map ∧ v ∉ keys := by
  induction keys generalizing map with
  | nil => simp
  | cons key keys ih =>
    rw [List.foldl_cons, ih, AList.mem_erase]
    grind

theorem removeKey_spec (h : Positive map) (it : Iteration) :
    (∀ v, weight (removeKey it map) v = weight map v - 1) ∧ Positive (removeKey it map) := by
  have hperm := it.perm map.keys
  have hdec := decrement_run (s := (map, [])) (hperm.nodup_iff.2 map.keys_nodup)
    fun v hv => AList.mem_keys.2 (hperm.mem_iff.1 hv)
  have hkeys : ∀ v, v ∈ it.keySet map.keys ↔ 0 < weight map v := by
    intro v
    rw [hperm.mem_iff, ← AList.mem_keys, h]
  have hweight : ∀ v, weight (removeKey it map) v = weight map v - 1 := by
    intro v
    simp only [removeKey, weight_remove, hdec.weight, hdec.removeList, hkeys]
    grind
  refine ⟨hweight, fun v => ?_⟩
  rw [hweight, removeKey, mem_remove, hdec.mem, hdec.removeList, hkeys, h]
  grind

/-! ## The first loop -/

/-- The entries are the bag. -/
def Holds (map : Map) (bag : Multiset Int) : Prop := ∀ v, bag.count v = weight map v

structure Inv (k : Nat) (map : Map) (nums : List Int) : Prop where
  positive : Positive map
  size : map.keys.length < k
  tally : ∃ bag, Holds map bag ∧ Tally k nums bag

/-- The map with `i` counted. -/
def counted (map : Map) (i : Int) : Map := map.insert i (weight map i + 1)

theorem visit_eq : visit it k map i =
    if (counted map i).keys.length ≥ k then removeKey it (counted map i) else counted map i := by
  have hcount : (if map.lookup i = none then map.insert i 1
      else map.insert i (weight map i + 1)) = counted map i := by
    split_ifs with hnew
    · rw [counted, weight, hnew, Option.getD_none]
    · rfl
  rw [visit, hcount]

theorem weight_counted : weight (counted map i) v =
    weight map v + if v = i then 1 else 0 := by
  rw [counted, weight_insert]
  grind

theorem mem_counted : v ∈ counted map i ↔ v = i ∨ v ∈ map := AList.mem_insert map

theorem Positive.counted (h : Positive map) (i : Int) : Positive (counted map i) := by
  intro v
  rw [mem_counted, weight_counted, h]
  grind

theorem Holds.counted {bag : Multiset Int} (h : Holds map bag) (i : Int) :
    Holds (counted map i) (i ::ₘ bag) := by
  intro v
  rw [Multiset.count_cons, weight_counted, h]

/-- There is one key more, or as many as before. -/
theorem length_counted (h : i ∈ map) : (counted map i).keys.length = map.keys.length := by
  rw [counted, AList.keys_insert, List.length_cons, List.length_erase_add_one (AList.mem_keys.1 h)]

theorem length_counted_new (h : i ∉ map) :
    (counted map i).keys.length = map.keys.length + 1 := by
  rw [counted, AList.keys_insert, List.length_cons, List.erase_of_not_mem (mt AList.mem_keys.2 h)]

/-- Each key is cancelled once. -/
theorem Holds.removeKey {bag : Multiset Int} (h : Holds map bag) (hpos : Positive map)
    (it : Iteration) :
    Holds (MajorityNum3.removeKey it map) (bag - map.keys) ∧ (map.keys : Multiset Int) ≤ bag := by
  have hkeys : ∀ v, Multiset.count v (map.keys : Multiset Int) =
      if 0 < weight map v then 1 else 0 := by
    intro v
    rw [Multiset.coe_count]
    split_ifs with hv
    · exact List.count_eq_one_of_mem map.keys_nodup (AList.mem_keys.1 ((hpos v).2 hv))
    · exact List.count_eq_zero.2 fun hmem => hv ((hpos v).1 (AList.mem_keys.2 hmem))
  refine ⟨fun v => ?_, Multiset.le_iff_count.2 fun v => ?_⟩
  · rw [Multiset.count_sub, h, hkeys, (removeKey_spec hpos it).1]
    grind
  · rw [h, hkeys]
    grind

/-- The key that makes the entries too many is new, and goes at once. -/
theorem length_removeKey (hpos : Positive map) (hi : i ∉ map) :
    (MajorityNum3.removeKey it (counted map i)).keys.length ≤ map.keys.length := by
  obtain ⟨hweight, hpos'⟩ := removeKey_spec (hpos.counted i) it
  refine (List.subperm_of_subset (AList.keys_nodup _) fun v hv => ?_).length_le
  have hv := (hpos' v).1 (AList.mem_keys.2 hv)
  rw [hweight, weight_counted] at hv
  have hzero := mt (hpos i).2 hi
  refine AList.mem_keys.1 ((hpos v).2 ?_)
  grind

theorem Inv.visit (h : Inv k map nums) (it : Iteration) (i : Int) :
    Inv k (visit it k map i) (nums ++ [i]) := by
  obtain ⟨hpos, hsize, bag, hbag, htally⟩ := h
  have hpos' := hpos.counted i
  have hbag' := hbag.counted i
  have htally' := htally.add i
  rw [visit_eq]
  split_ifs with hmany
  · have hi : i ∉ map := by
      intro hi
      rw [length_counted hi] at hmany
      omega
    have hfull : (counted map i).keys.length = k := by
      rw [length_counted_new hi] at hmany ⊢
      omega
    obtain ⟨hrest, hle⟩ := hbag'.removeKey hpos' it
    refine ⟨(removeKey_spec hpos' it).2, (length_removeKey hpos hi).trans_lt hsize, _, hrest, ?_⟩
    exact htally'.cancel hle (Multiset.coe_nodup.2 (AList.keys_nodup _)) hfull
  · exact ⟨hpos', not_le.1 hmany, _, hbag', htally'⟩

theorem Inv.run (h : Inv k map nums) (it : Iteration) (rest : List Int) :
    Inv k (rest.foldl (MajorityNum3.visit it k) map) (nums ++ rest) := by
  induction rest generalizing map nums with
  | nil => rwa [List.append_nil]
  | cons i rest ih =>
    have hrest := ih (h.visit it i)
    rwa [List.append_assoc, List.singleton_append] at hrest

/-! ## The last loop -/

theorem occurrences_eq : occurrences nums i = nums.count i := by
  have hfrom : ∀ n, nums.foldl (fun count j => if i = j then count + 1 else count) n =
      n + nums.count i := by
    induction nums with
    | nil => exact fun n => rfl
    | cons j nums ih =>
      intro n
      rw [List.foldl_cons, ih, List.count_cons]
      grind
  rw [occurrences, hfrom, Nat.zero_add]

/-- What is chosen occurs most often. -/
theorem choose_run (nums keys : List Int) {c : Nat × Int} (hc : 0 < c.1 → nums.count c.2 = c.1) :
    c.1 ≤ (keys.foldl (choose nums) c).1 ∧
    (∀ v ∈ keys, nums.count v ≤ (keys.foldl (choose nums) c).1) ∧
    (0 < (keys.foldl (choose nums) c).1 →
      nums.count (keys.foldl (choose nums) c).2 = (keys.foldl (choose nums) c).1) := by
  induction keys generalizing c with
  | nil => exact ⟨le_rfl, nofun, hc⟩
  | cons key keys ih =>
    rw [List.foldl_cons]
    have hkey : c.1 ≤ (choose nums c key).1 ∧ nums.count key ≤ (choose nums c key).1 ∧
        (0 < (choose nums c key).1 → nums.count (choose nums c key).2 = (choose nums c key).1) := by
      unfold choose
      rw [occurrences_eq]
      split_ifs with hgt
      · exact ⟨hgt.le, le_rfl, fun _ => rfl⟩
      · exact ⟨le_rfl, not_lt.1 hgt, hc⟩
    obtain ⟨hle, hall, hcount⟩ := ih hkey.2.2
    refine ⟨hkey.1.trans hle, fun v hv => ?_, hcount⟩
    cases List.mem_cons.1 hv with
    | inl heq => exact heq ▸ hkey.2.1.trans hle
    | inr hv => exact hall v hv

theorem majorityNumber_frequent (it : Iteration) (hk : 2 ≤ k) (h : Frequent k nums v) :
    Frequent k nums (majorityNumber it nums k) := by
  have hstart : Inv k ∅ [] := by
    refine ⟨fun v => ?_, by simpa using (show 0 < k by omega), 0, fun v => ?_, Tally.empty⟩
    · simp [weight]
    · simp [weight]
  obtain ⟨hpos, -, bag, hbag, htally⟩ := hstart.run it nums
  rw [List.nil_append] at htally
  rw [majorityNumber]
  generalize nums.foldl (visit it k) ∅ = map at hpos hbag ⊢
  have hv : v ∈ map.keys := by
    have hcount := Multiset.count_pos.2 (htally.mem h)
    rw [hbag] at hcount
    exact AList.mem_keys.1 ((hpos v).2 hcount)
  rw [if_neg (List.length_pos_of_mem hv).ne']
  obtain ⟨-, hall, hchosen⟩ := choose_run nums (it.keySet map.keys) (c := (0, 0)) nofun
  have hle := hall v ((it.perm _).mem_iff.2 hv)
  have hoccurs : 0 < nums.count v := by
    unfold Frequent at h
    exact Nat.pos_of_mul_pos_left (Nat.lt_of_le_of_lt (Nat.zero_le _) h)
  exact h.of_le ((hchosen (hoccurs.trans_le hle)).symm ▸ hle)

end

/-- Both programs find a frequent number where there is one. The first one's `ArrayList` has at most
`Integer.MAX_VALUE` elements. -/
def FindFrequent (it : Iteration) (k : Nat) (nums : List Int) : Prop :=
  (nums.length ≤ intMax → (∃ v, Frequent k nums v) → Frequent k nums (majorityNumber it nums k)) ∧
  ∀ candidate1 candidate2, (∃ v, Frequent 3 nums v) →
    ∃ r, MajorityNum2.majorityNumber candidate1 candidate2 nums = .ok r ∧ Frequent 3 nums r

/-- **The condition**: an `int` counts the numbers, or the second program has nothing to find. -/
theorem findFrequent_iff (it : Iteration) {k : Nat} (hk : 2 ≤ k) (nums : List Int) :
    FindFrequent it k nums ↔ nums.length ≤ intMax ∨ ¬ ∃ v, Frequent 3 nums v := by
  constructor
  · rintro ⟨-, hfind⟩
    refine or_iff_not_imp_right.2 fun hex => ?_
    obtain ⟨r, hr, -⟩ := hfind 0 0 (not_not.1 hex)
    exact MajorityNum2.length_le_of_ok hr
  · intro h
    refine ⟨fun _ ⟨_, hv⟩ => majorityNumber_frequent it hk hv, fun _ _ hex => ?_⟩
    obtain ⟨v, hv⟩ := id hex
    exact MajorityNum2.majorityNumber_ok (h.resolve_right fun hno => hno hex) hv

theorem findFrequent_iff_five : FindFrequent ⟨id, List.Perm.refl⟩ 3 [1, 2, 1, 3, 1] ↔
    ([1, 2, 1, 3, 1] : List Int).length ≤ intMax ∨
      ¬ ∃ v, Frequent 3 ([1, 2, 1, 3, 1] : List Int) v :=
  findFrequent_iff ⟨id, List.Perm.refl⟩ (k := 3) (by decide) [1, 2, 1, 3, 1]

/-- `2 ^ 31` times the same number. -/
theorem not_findFrequent_ones :
    ¬ FindFrequent ⟨id, List.Perm.refl⟩ 3 (List.replicate (2 ^ 31) 1) := by
  rintro ⟨-, hfind⟩
  have hfrequent : Frequent 3 (List.replicate (2 ^ 31) 1) (1 : Int) := by
    rw [Frequent, List.length_replicate, List.count_replicate_self]
    decide
  obtain ⟨r, hr, -⟩ := hfind 0 0 ⟨1, hfrequent⟩
  have hle := MajorityNum2.length_le_of_ok hr
  rw [List.length_replicate] at hle
  exact absurd hle (by decide)

end MajorityNum3
