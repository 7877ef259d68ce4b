import DsAlgor.Census.Table
import Mathlib.Tactic

/-!
# The hash table is a map

`Inv` ties the table to the abstract map: the list of the buckets (`Listed`), the chains and the
size. Insertion and removal keep it (`Inv.insert`, `Inv.erase`). A new table has it when the memory
held `-1` in the two indices that `census_ht_create` leaves out. Until the first insertion they keep
what they had, so that the property of the list fails for other memory (`table_right_iff`); the
first insertion sets them. `census_ht_get_all_elements` counts the entries with an `int`.
-/

namespace CensusHt

open Circular Signed

variable {D : Type}

/-! ## The invariant -/

structure Inv (t : Table D) (M : Key → Option D) (bs : List Int) : Prop where
  listed : Listed t bs
  size : t.size = (bs.flatMap t.chain).length
  once : ∀ i, (t.chain i).Pairwise fun a b => t.options.keysMatch a.key b.key = false
  home : ∀ i, ∀ e ∈ t.chain i, t.findBucketIdx e.key = i
  map : ∀ k d, M k = some d ↔ ∃ e ∈ t.chain (t.findBucketIdx k), t.options.keysMatch e.key k =
    true ∧ e.data = d

section
variable {t t' : Table D} {M M' : Key → Option D} {bs bs' : List Int} {key k : Key} {i : Int}

section
variable (h : Inv t M bs)
include h

/-- The entries of a chain with the key of a found entry: only this one. -/
theorem Inv.rest_of_found (law : t.options.Lawful) {L R : List (Entry D)} {e : Entry D}
    (hchain : t.chain i = L ++ e :: R) (he : t.options.keysMatch e.key key = true) :
    ∀ x ∈ L ++ R, t.options.keysMatch x.key key = false := by
  have honce := h.once i
  rw [hchain, List.pairwise_append, List.pairwise_cons] at honce
  intro x hx
  rw [← Bool.not_eq_true]
  intro hmatch
  have hxe : t.options.keysMatch x.key e.key = true := law.trans hmatch (law.symm he)
  rcases List.mem_append.1 hx with hx | hx
  · rw [honce.2.2 x hx e List.mem_cons_self] at hxe
    cases hxe
  · have hex := law.symm hxe
    rw [honce.2.1.1 x hx] at hex
    cases hex

/-- One entry of the chain of `key` is replaced by another one; both are optional, and no other
entry of the chain has the key. -/
theorem Inv.update (law : t.options.Lawful) {L R : List (Entry D)} (old new : Option (Entry D))
    (hopt : t'.options = t.options)
    (hchain : t.chain (t.findBucketIdx key) = L ++ old.toList ++ R)
    (hchain' : t'.chain = Function.update t.chain (t.findBucketIdx key) (L ++ new.toList ++ R))
    (hlisted : Listed t' bs') (hsize : t'.size = (bs'.flatMap t'.chain).length)
    (hold : ∀ e ∈ old, t.options.keysMatch e.key key = true)
    (hnew : ∀ e ∈ new, t.options.keysMatch e.key key = true)
    (hrest : ∀ e ∈ L ++ R, t.options.keysMatch e.key key = false)
    (hM : ∀ k, M' k = if t.options.keysMatch key k then new.map Entry.data else M k) :
    Inv t' M' bs' := by
  have hother : ∀ j ≠ t.findBucketIdx key, t'.chain j = t.chain j := by
    intro j hj
    rw [hchain', Function.update_of_ne hj]
  have hself : t'.chain (t.findBucketIdx key) = L ++ new.toList ++ R := by
    rw [hchain', Function.update_self]
  have hmem : ∀ x, x ∈ L ++ new.toList ++ R ↔ x ∈ L ++ R ∨ x ∈ new := by
    intro x
    simp only [List.mem_append, Option.mem_toList]
    tauto
  have hmem' : ∀ x, x ∈ t.chain (t.findBucketIdx key) ↔ x ∈ L ++ R ∨ x ∈ old := by
    intro x
    rw [hchain]
    simp only [List.mem_append, Option.mem_toList]
    tauto
  refine ⟨hlisted, hsize, fun j => ?_, fun j e he => ?_, fun k d => ?_⟩
  · rw [hopt]
    by_cases hj : j = t.findBucketIdx key
    · rw [hj, hself]
      have honce := h.once (t.findBucketIdx key)
      rw [hchain] at honce
      cases new with
      | none =>
        rw [Option.toList_none, List.append_nil]
        refine honce.sublist (List.Sublist.append ?_ (List.Sublist.refl R))
        exact List.sublist_append_left _ _
      | some n =>
        have hn := hnew n rfl
        have honce' : (L ++ R).Pairwise fun a b => t.options.keysMatch a.key b.key = false :=
          honce.sublist (List.Sublist.append (List.sublist_append_left _ _) (List.Sublist.refl R))
        rw [List.pairwise_append] at honce'
        rw [Option.toList_some, List.append_assoc, List.singleton_append, List.pairwise_append,
          List.pairwise_cons]
        refine ⟨honce'.1, ⟨fun r hr => ?_, honce'.2.1⟩, fun l hl x hx => ?_⟩
        · rw [← Bool.not_eq_true]
          intro hmatch
          have hfalse := hrest r (List.mem_append_right _ hr)
          rw [law.trans (law.symm hmatch) hn] at hfalse
          cases hfalse
        · rcases List.mem_cons.1 hx with rfl | hx
          · rw [law.match_congr hn]
            exact hrest l (List.mem_append_left _ hl)
          · exact honce'.2.2 l hl x hx
    · rw [hother j hj]
      exact h.once j
  · rw [findBucketIdx_options hopt]
    by_cases hj : j = t.findBucketIdx key
    · rw [hj] at he ⊢
      rw [hself, hmem] at he
      rcases he with he | he
      · exact h.home _ e ((hmem' e).2 (.inl he))
      · exact findBucketIdx_congr law (hnew e he)
    · rw [hother j hj] at he
      exact h.home j e he
  · rw [hopt, findBucketIdx_options hopt, hM]
    by_cases hkey : t.options.keysMatch key k = true
    · have hidx := findBucketIdx_congr law hkey
      rw [if_pos hkey, ← hidx, hself]
      simp only [hmem, Option.map_eq_some_iff]
      constructor
      · rintro ⟨e, he, rfl⟩
        exact ⟨e, .inr he, law.trans (hnew e he) hkey, rfl⟩
      · rintro ⟨e, he | he, hmatch, rfl⟩
        · have hfalse := hrest e he
          rw [law.trans hmatch (law.symm hkey)] at hfalse
          cases hfalse
        · exact ⟨e, he, rfl⟩
    · rw [if_neg hkey, h.map]
      by_cases hidx : t.findBucketIdx k = t.findBucketIdx key
      · rw [hidx, hself]
        have hno : ∀ e : Entry D, t.options.keysMatch e.key key = true →
          t.options.keysMatch e.key k ≠ true :=
          fun e he hmatch => hkey (law.trans (law.symm he) hmatch)
        simp only [hmem, hmem']
        constructor
        · rintro ⟨e, he | he, hmatch, hdata⟩
          · exact ⟨e, .inl he, hmatch, hdata⟩
          · exact absurd hmatch (hno e (hold e he))
        · rintro ⟨e, he | he, hmatch, hdata⟩
          · exact ⟨e, .inl he, hmatch, hdata⟩
          · exact absurd hmatch (hno e (hnew e he))
      · rw [hother _ hidx]

/-! ## The operations -/

theorem Inv.mem_listed (hchain : t.chain (t.findBucketIdx key) ≠ []) : t.findBucketIdx key ∈ bs :=
  (h.listed.mem _).2 ⟨findBucketIdx_range t key, hchain⟩

theorem Inv.eq_nil_of_size (hsize : t.size = 0) : bs = [] := by
  rw [h.size, List.length_eq_zero_iff, List.flatMap_eq_nil_iff] at hsize
  by_contra hne
  obtain ⟨b, hb⟩ := List.exists_mem_of_ne_nil bs hne
  exact ((h.listed.mem b).1 hb).2 (hsize b hb)

/-- A change of a chain that is not empty before and after, and of the size. -/
theorem Inv.setChain (law : t.options.Lawful) {L R : List (Entry D)}
    (old new : Option (Entry D)) (hchain : t.chain (t.findBucketIdx key) = L ++ old.toList ++ R)
    (hne : t.chain (t.findBucketIdx key) ≠ []) (hne' : L ++ new.toList ++ R ≠ []) {size : Nat}
    (hsize : size + old.toList.length = t.size + new.toList.length)
    (hold : ∀ e ∈ old, t.options.keysMatch e.key key = true)
    (hnew : ∀ e ∈ new, t.options.keysMatch e.key key = true)
    (hrest : ∀ e ∈ L ++ R, t.options.keysMatch e.key key = false)
    (hM : ∀ k, M' k = if t.options.keysMatch key k then new.map Entry.data else M k) :
    Inv { t.setChain (t.findBucketIdx key) (L ++ new.toList ++ R) with size := size } M' bs := by
  have hchain' : { t.setChain (t.findBucketIdx key)
    (L ++ new.toList ++ R) with size := size }.chain = Function.update t.chain (t.findBucketIdx key)
    (L ++ new.toList ++ R) := chain_setChain
  refine h.update law old new rfl hchain hchain' ?_ ?_ hold hnew hrest hM
  · refine h.listed.congr rfl next_setChain prev_setChain fun j => ?_
    rw [hchain']
    by_cases hj : j = t.findBucketIdx key
    · rw [hj, Function.update_self]
      exact iff_of_true hne' hne
    · rw [Function.update_of_ne hj]
  · have hlen := length_flatMap_update t.chain h.listed.nodup (h.mem_listed hne)
      (L ++ new.toList ++ R)
    rw [hchain']
    rw [hchain, ← h.size] at hlen
    simp only [List.length_append] at hlen ⊢
    omega

theorem Inv.insert_found (law : t.options.Lawful) (hfound : (t.htFind key).found = true)
    (data : D) : Inv (t.insert key data) (Op.apply t.options M (.insert key data)) bs := by
  obtain ⟨L, e, R, hidx, hchain, hmatch, hpos, -, -⟩ := (located t key).found_iff hfound
  have hmodify : (t.chain (t.findBucketIdx key)).modify L.length
    (fun ptr => { ptr with data := data }) = L ++ (some { e with data := data }).toList ++ R := by
    rw [hchain, List.modify_eq_take_drop, List.take_left, List.drop_left]
    simp
  have hself : ∀ x ∈ some e, t.options.keysMatch x.key key = true := by
    intro x hx
    cases hx
    exact hmatch
  have hself' : ∀ x ∈ some { e with data := data }, t.options.keysMatch x.key key = true := by
    intro x hx
    cases hx
    exact hmatch
  unfold Table.insert
  dsimp only
  rw [if_pos hfound, hidx, hpos, hmodify]
  exact h.setChain law (some e) (some { e with data := data }) (by rw [hchain]; simp)
    (by rw [hchain]; simp) (by simp) rfl hself hself'
    (h.rest_of_found law hchain hmatch) fun k => rfl

/-- The links of a bucket that was empty. -/
theorem Inv.link (hi : i ≠ -1) (hempty : t.chain i = []) :
    (t.link i).next = Function.update (Function.update t.next (lastOr (-1) bs) i) i (-1) ∧
      (t.link i).prev = Function.update (Function.update t.prev i (lastOr (-1) bs)) (-1) i := by
  unfold Table.link
  dsimp only
  by_cases hsize : t.size = 0
  · rw [if_pos hsize, h.eq_nil_of_size hsize, lastOr_nil]
    constructor
    · refine next_setFirst.trans ?_
      rw [next_setPrev, next_setNext hi, Function.update_comm hi]
    · refine prev_setLast.trans ?_
      show Function.update ((t.setNext _ _).setPrev _ _).prev _ _ = _
      rw [prev_setPrev hi, prev_setNext]
  · have hlast : t.lastNonEmptyBucket = lastOr (-1) bs := by
      have hprev := h.listed.circular
      rw [← List.append_nil bs] at hprev
      exact hprev.prev_eq
    have hne : lastOr (-1) bs ≠ -1 := by
      cases bs using List.reverseRecOn with
      | nil => exact absurd h.size hsize
      | append_singleton bs b =>
        rw [lastOr_concat]
        exact h.listed.ne_neg (List.mem_append_right _ (List.mem_singleton_self _))
    rw [if_neg hsize, if_pos (by rw [hempty]; rfl), hlast]
    constructor
    · refine (next_setNext hi).trans ?_
      rw [next_setPrev, next_setNext hne]
    · refine prev_setLast.trans ?_
      rw [prev_setNext, prev_setPrev hi, prev_setNext]
      exact congrArg (fun x => Function.update (Function.update t.prev i x) (-1) i) hlast

theorem Inv.link_eq_self (hchain : t.chain (t.findBucketIdx key) ≠ []) :
    t.link (t.findBucketIdx key) = t := by
  have hsize : t.size ≠ 0 := by
    intro hsize
    have hmem := h.mem_listed hchain
    rw [h.eq_nil_of_size hsize] at hmem
    cases hmem
  unfold Table.link
  dsimp only
  rw [if_neg hsize, if_neg (by rw [List.isEmpty_iff]; exact hchain)]

variable (law : t.options.Lawful)
include law

/-- `insert` of a key that is not there. -/
theorem Inv.insert_absent (hfound : (t.htFind key).found = false) (data : D) :
    ∃ bs', Inv (t.insert key data) (Op.apply t.options M (.insert key data)) bs' := by
  have hnone : ∀ e ∈ t.chain (t.findBucketIdx key), t.options.keysMatch e.key key = false := by
    cases located t key with
    | absent _ none => exact none
    | first _ _ found => rw [hfound] at found; cases found
    | later _ _ _ _ found => rw [hfound] at found; cases found
  have hself : ∀ x ∈ some (Entry.mk key data), t.options.keysMatch x.key key = true := by
    intro x hx
    cases hx
    exact law.refl key
  have hrange := findBucketIdx_range t key
  unfold Table.insert
  dsimp only
  rw [if_neg (by rw [hfound]; nofun), chain_link, size_setChain, size_link]
  by_cases hchain : t.chain (t.findBucketIdx key) = []
  · have hne : t.findBucketIdx key ≠ -1 := by omega
    obtain ⟨hnext, hprev⟩ := h.link hne hchain
    have hnot : t.findBucketIdx key ∉ bs := fun hmem => ((h.listed.mem _).1 hmem).2 hchain
    have hchain' : ((t.link (t.findBucketIdx key)).setChain (t.findBucketIdx key)
      [⟨key, data⟩]).chain = Function.update t.chain (t.findBucketIdx key) [⟨key, data⟩] := by
      rw [chain_setChain, chain_link]
    rw [hchain]
    refine ⟨bs ++ [t.findBucketIdx key], ?_⟩
    refine h.update law (L := []) (R := []) none (some ⟨key, data⟩) options_link hchain
      hchain' ?_ ?_ nofun hself nofun fun k => rfl
    · refine h.listed.add options_link hrange hchain (fun j hj => ?_) ?_ ?_ ?_
      · exact (congrFun hchain' j).trans (Function.update_of_ne hj _ _)
      · show ((t.link _).setChain _ _).chain _ ≠ []
        rw [hchain', Function.update_self]
        nofun
      · exact next_setChain.trans hnext
      · exact prev_setChain.trans hprev
    · show t.size + 1 = ((bs ++ [_]).flatMap ((t.link _).setChain _ _).chain).length
      have hsame : bs.flatMap (Function.update t.chain (t.findBucketIdx key) [⟨key, data⟩]) =
        bs.flatMap t.chain :=
        List.flatMap_congr fun j hj => Function.update_of_ne (fun (heq : j = t.findBucketIdx key) =>
          hnot (heq ▸ hj)) _ _
      rw [hchain', List.flatMap_append, List.length_append, hsame, ← h.size, List.flatMap_singleton,
        Function.update_self]
      rfl
  · rw [h.link_eq_self hchain]
    refine ⟨bs, h.setChain law (L := []) none (some ⟨key, data⟩) rfl hchain (by nofun) rfl nofun
      hself hnone fun k => rfl⟩

theorem Inv.insert (key : Key) (data : D) :
    ∃ bs', Inv (t.insert key data) (Op.apply t.options M (.insert key data)) bs' := by
  cases hfound : (t.htFind key).found with
  | true => exact ⟨bs, h.insert_found law hfound data⟩
  | false => exact h.insert_absent law hfound data

/-- The removal of the only entry of a bucket. -/
theorem Inv.erase_only {e : Entry D} (hchain : t.chain (t.findBucketIdx key) = [e])
    (hmatch : t.options.keysMatch e.key key = true) :
    ∃ bs', Inv ({ t with size := t.size - 1 }.unlink (t.findBucketIdx key) |>.setChain
      (t.findBucketIdx key) []) (Op.apply t.options M (.erase key)) bs' := by
  have hmem := h.mem_listed (by rw [hchain]; nofun)
  obtain ⟨A, B, rfl⟩ := List.append_of_mem hmem
  have hnot := (List.nodup_cons.1 (List.nodup_middle.1 h.listed.nodup)).1
  have hself : ∀ x ∈ some e, t.options.keysMatch x.key key = true := by
    intro x hx
    cases hx
    exact hmatch
  have hchain' : ({ t with size := t.size - 1 }.unlink (t.findBucketIdx key) |>.setChain
    (t.findBucketIdx key) []).chain = Function.update t.chain (t.findBucketIdx key) [] := by
    rw [chain_setChain, chain_unlink]
    rfl
  have hopt : ({ t with size := t.size - 1 }.unlink (t.findBucketIdx key) |>.setChain
    (t.findBucketIdx key) []).options = t.options := options_unlink
  refine ⟨A ++ B, h.update law (L := []) (R := []) (some e) none hopt hchain hchain' ?_ ?_ hself
    nofun nofun fun k => rfl⟩
  · refine Listed.unlink (t := { t with size := t.size - 1 }) ⟨h.listed.circular, h.listed.nodup,
      h.listed.mem⟩ hopt (fun j hj => ?_) ?_ next_setChain prev_setChain
    · exact (congrFun hchain' j).trans (Function.update_of_ne hj _ _)
    · rw [hchain', Function.update_self]
  · have hsame : (A ++ B).flatMap (Function.update t.chain (t.findBucketIdx key) []) =
      (A ++ B).flatMap t.chain :=
      List.flatMap_congr fun j hj =>
        Function.update_of_ne (fun (heq : j = t.findBucketIdx key) => hnot (heq ▸ hj)) _ _
    have hsize := h.size
    rw [List.flatMap_append, List.flatMap_cons, hchain] at hsize
    rw [hchain', hsame, size_setChain, size_unlink, List.flatMap_append]
    simp only [List.length_append, List.length_singleton] at hsize ⊢
    omega

theorem Inv.apply_erase_absent (hfound : (t.htFind key).found = false) :
    Op.apply t.options M (.erase key) = M := by
  funext k
  unfold Op.apply
  dsimp only
  by_cases hkey : t.options.keysMatch key k = true
  · rw [if_pos hkey, eq_comm, Option.eq_none_iff_forall_ne_some]
    intro d hd
    obtain ⟨e, he, hmatch, -⟩ := (h.map k d).1 hd
    rw [← findBucketIdx_congr law hkey] at he
    cases located t key with
    | absent _ none =>
      have hfalse := none e he
      rw [law.trans hmatch (law.symm hkey)] at hfalse
      cases hfalse
    | first _ _ found => rw [hfound] at found; cases found
    | later _ _ _ _ found => rw [hfound] at found; cases found
  · rw [if_neg hkey]

theorem Inv.erase (key : Key) :
    ∃ bs', Inv (t.erase key) (Op.apply t.options M (.erase key)) bs' := by
  unfold Table.erase
  dsimp only
  cases hfound : (t.htFind key).found with
  | false =>
    rw [h.apply_erase_absent law hfound]
    exact ⟨bs, h⟩
  | true =>
    obtain ⟨L, e, R, hidx, hchain, hmatch, -, hfirst, hprev⟩ := (located t key).found_iff hfound
    have hself : ∀ x ∈ some e, t.options.keysMatch x.key key = true := by
      intro x hx
      cases hx
      exact hmatch
    have hrest := h.rest_of_found law hchain hmatch
    have hne : t.chain (t.findBucketIdx key) ≠ [] := by
      rw [hchain]
      simp
    have hpos : t.size ≠ 0 := by
      intro hsize
      have hmem := h.mem_listed hne
      rw [h.eq_nil_of_size hsize] at hmem
      cases hmem
    have hsize : t.size - 1 + (some e).toList.length = t.size +
      (none : Option (Entry D)).toList.length := by
      simp only [Option.toList_some, Option.toList_none, List.length_singleton, List.length_nil]
      omega
    rw [if_neg (by nofun), hidx]
    cases hisFirst : (t.htFind key).isFirstInChain with
    | true =>
      obtain rfl := hfirst.1 hisFirst
      rw [if_pos rfl]
      have hchain₀ : { t with size := t.size - 1 }.chain = t.chain := rfl
      rw [hchain₀, hchain, List.nil_append, List.tail_cons]
      cases R with
      | nil =>
        rw [if_pos List.isEmpty_nil, chain_unlink, hchain₀, hchain]
        exact h.erase_only law hchain hmatch
      | cons r R =>
        rw [if_neg nofun, hchain₀, hchain]
        exact ⟨bs, h.setChain law (L := []) (some e) none hchain hne (by nofun) hsize hself nofun
          hrest fun k => rfl⟩
    | false =>
      have hL : L ≠ [] := fun hnil => by
        rw [hfirst.2 hnil] at hisFirst
        cases hisFirst
      have herase : (t.chain (t.findBucketIdx key)).eraseIdx ((t.htFind key).prevEntry + 1) =
        L ++ [] ++ R := by
        rw [hprev hisFirst, hchain, List.eraseIdx_append_of_length_le le_rfl, Nat.sub_self,
          List.eraseIdx_cons_zero, List.append_nil]
      rw [if_neg nofun]
      have hset : Inv _ (Op.apply t.options M (.erase key)) bs :=
        h.setChain law (some e) none (by rw [hchain]; simp) hne (by simp [hL]) hsize hself nofun
          hrest fun k => rfl
      refine ⟨bs, ?_⟩
      show Inv (Table.setChain _ _ ((t.chain _).eraseIdx _)) _ _
      rw [herase]
      exact hset

/-! ## Reading the table -/

theorem Inv.find_eq (null : D) (key : Key) : t.find null key = (M key).getD null := by
  unfold Table.find
  dsimp only
  cases hfound : (t.htFind key).found with
  | false =>
    have hM := congrFun (h.apply_erase_absent law hfound) key
    unfold Op.apply at hM
    dsimp only at hM
    rw [if_pos (law.refl key)] at hM
    rw [if_pos (by rfl), ← hM]
    rfl
  | true =>
    obtain ⟨L, e, R, hidx, hchain, hmatch, hpos, -, -⟩ := (located t key).found_iff hfound
    have hM : M key = some e.data := (h.map key e.data).2 ⟨e, by rw [hchain]; simp, hmatch, rfl⟩
    rw [if_neg (by nofun), hidx, hpos, hchain, List.getElem?_append_right le_rfl, Nat.sub_self, hM]
    rfl

end

/-- The entries of a chain are written behind the others. -/
theorem writeChain_eq {size : Nat} {es ret : List (Entry D)}
    (hroom : ret.length + es.length ≤ size) (hmax : size ≤ intMax) :
    Table.writeChain size es ret.length ret =
      .ok (((ret ++ es).length : Nat), ret ++ es) := by
  induction es generalizing ret with
  | nil => rw [Table.writeChain, List.append_nil]; rfl
  | cons e es ih =>
    rw [List.length_cons] at hroom
    rw [Table.writeChain, if_pos (by omega),
      add_ok (Int.natCast_nonneg _) Int.one_nonneg (by omega), ok_bind]
    have hlen : ((ret ++ [e]).length : Int) = ret.length + 1 := by simp
    rw [← hlen, ih (by simp; omega), List.append_assoc, List.singleton_append]

/-- The loop of `get_all_elements` visits the rest `B` of the list. -/
theorem collect_eq {A B : List Int} (h : Circular t.next t.prev (-1) (A ++ B))
    (hpos : ∀ b ∈ B, 0 ≤ b) (hmax : t.size ≤ intMax) (rounds : Nat) (hrounds : B.length < rounds)
    (ret : List (Entry D)) (hroom : ret.length + (B.flatMap t.chain).length ≤ t.size) :
    t.collect rounds (headOr (-1) B) ret.length ret = .ok (ret ++ B.flatMap t.chain) := by
  induction B generalizing A rounds ret with
  | nil =>
    obtain ⟨rounds, rfl⟩ := Nat.exists_eq_add_one_of_ne_zero (Nat.ne_of_gt hrounds)
    rw [Table.collect, headOr_nil, if_neg (by decide), List.flatMap_nil, List.append_nil]
    rfl
  | cons b B ih =>
    obtain ⟨rounds, rfl⟩ :=
      Nat.exists_eq_add_one_of_ne_zero (Nat.ne_of_gt (Nat.zero_lt_of_lt hrounds))
    have hb := hpos b List.mem_cons_self
    have hnext : (t.buckets b).nextNonEmptyBucket = headOr (-1) B := by
      have hmid := h.next_mid
      unfold Table.next at hmid
      rwa [if_neg (by omega)] at hmid
    have hcirc : Circular t.next t.prev (-1) (A ++ [b] ++ B) := by
      rw [List.append_assoc]
      exact h
    rw [List.flatMap_cons, List.length_append] at hroom
    rw [Table.collect, headOr_cons, if_pos hb, hnext, writeChain_eq (by omega) hmax, ok_bind]
    dsimp only
    rw [ih hcirc (fun x hx => hpos x (List.mem_cons_of_mem _ hx)) rounds
      (by rw [List.length_cons] at hrounds; omega) _ (by rw [List.length_append]; omega),
      List.flatMap_cons, List.append_assoc]

/-- What is written has been counted. -/
theorem writeChain_counts {size : Nat} {es ret ret' : List (Entry D)} {i' : Int}
    (hret : ret.length ≤ intMax)
    (hrun : Table.writeChain size es ret.length ret = .ok (i', ret')) :
    i' = ret'.length ∧ ret'.length ≤ intMax := by
  induction es generalizing ret with
  | nil =>
    cases hrun
    exact ⟨rfl, hret⟩
  | cons e es ih =>
    rw [Table.writeChain] at hrun
    split at hrun
    · cases hadd : add ret.length 1 with
      | error e =>
        rw [hadd] at hrun
        cases hrun
      | ok i =>
        obtain ⟨rfl, hle⟩ := add_eq_ok hadd
        have hlen : ((ret ++ [e]).length : Int) = ret.length + 1 := by simp
        rw [hadd, ok_bind, ← hlen] at hrun
        exact ih (hlen ▸ hle) hrun
    · cases hrun

theorem collect_counts {rounds : Nat} {idx : Int} (ret : List (Entry D)) {L : List (Entry D)}
    (hret : ret.length ≤ intMax) (hrun : t.collect rounds idx ret.length ret = .ok L) :
    L.length ≤ intMax := by
  induction rounds generalizing idx ret with
  | zero => cases hrun
  | succ rounds ih =>
    rw [Table.collect] at hrun
    split at hrun
    · cases hwrite : Table.writeChain t.size (t.chain idx) ret.length ret with
      | error e =>
        rw [hwrite] at hrun
        cases hrun
      | ok x =>
        obtain ⟨i', ret'⟩ := x
        obtain ⟨rfl, hret'⟩ := writeChain_counts hret hwrite
        rw [hwrite, ok_bind] at hrun
        exact ih ret' hret' hrun
    · cases hrun
      exact hret

theorem Listed.length_le (h : Listed t bs) : bs.length ≤ t.options.numBuckets := by
  have hsub : bs.toFinset ⊆ Finset.Ico (0 : Int) t.options.numBuckets := by
    intro i hi
    rw [Finset.mem_Ico]
    exact ((h.mem i).1 (List.mem_toFinset.1 hi)).1
  have hcard := Finset.card_le_card hsub
  rw [List.toFinset_card_of_nodup h.nodup, Int.card_Ico] at hcard
  omega

theorem Inv.getAllElements_eq (h : Inv t M bs) (hmax : t.size ≤ intMax) :
    t.getAllElements = .ok (bs.flatMap t.chain) := by
  unfold Table.getAllElements
  by_cases hsize : t.size = 0
  · rw [if_pos hsize, h.eq_nil_of_size hsize]
    rfl
  · have hfirst : t.firstNonEmptyBucket = headOr (-1) bs := h.listed.circular.next_head
    rw [if_neg hsize, hfirst]
    exact collect_eq (A := []) h.listed.circular (fun b hb => ((h.listed.mem b).1 hb).1.1) hmax _
      (Nat.lt_succ_of_le h.listed.length_le) [] (by rw [h.size]; simp)

theorem getAllElements_counts {L : List (Entry D)} (hrun : t.getAllElements = .ok L) :
    L.length ≤ intMax := by
  have hzero : ((0 : Nat) : Int) ≤ intMax := by decide
  unfold Table.getAllElements at hrun
  split at hrun
  · cases hrun
    exact hzero
  · exact collect_counts [] hzero hrun

/-- A list of different keys of the map has no more elements than one of all its keys. -/
theorem Enumerates.length_le {opt : Options} (law : opt.Lawful) {L L' : List (Entry D)}
    (h : Enumerates opt M L) (h' : Enumerates opt M L') : L.length ≤ L'.length := by
  have hfound : ∀ e ∈ L, ∃ e' ∈ L', opt.keysMatch e'.key e.key = true := fun e he =>
    (((h'.mem e.key e.data).1 ((h.mem e.key e.data).2 ⟨e, he, law.refl _, rfl⟩))).imp
      fun _ h => ⟨h.1, h.2.1⟩
  have honce := h.once
  clear h h'
  induction L generalizing L' with
  | nil => exact Nat.zero_le _
  | cons e L ih =>
    obtain ⟨e', he', hmatch⟩ := hfound e List.mem_cons_self
    obtain ⟨A, B, rfl⟩ := List.append_of_mem he'
    obtain ⟨hother, honce⟩ := List.pairwise_cons.1 honce
    have hle : L.length ≤ (A ++ B).length := by
      refine ih (fun x hx => ?_) honce
      obtain ⟨x', hx', hxmatch⟩ := hfound x (List.mem_cons_of_mem _ hx)
      refine ⟨x', ?_, hxmatch⟩
      rcases List.mem_cons.1 (List.perm_middle.mem_iff.1 hx') with rfl | hx'
      · -- the entry of another key
        have hfalse := hother x hx
        rw [law.trans (law.symm hmatch) hxmatch] at hfalse
        cases hfalse
      · exact hx'
    rw [List.length_append] at hle
    rw [List.length_append, List.length_cons, List.length_cons]
    omega

theorem Inv.enumerates (h : Inv t M bs) (law : t.options.Lawful) :
    Enumerates t.options M (bs.flatMap t.chain) := by
  refine ⟨?_, fun k d => ?_⟩
  · rw [List.pairwise_flatMap]
    refine ⟨fun i _ => h.once i, h.listed.nodup.imp fun {i j} hij a ha b hb => ?_⟩
    rw [← Bool.not_eq_true]
    intro hmatch
    have hidx := findBucketIdx_congr law hmatch
    rw [h.home i a ha, h.home j b hb] at hidx
    exact hij hidx
  · rw [h.map]
    constructor
    · rintro ⟨e, he, hmatch, hdata⟩
      refine ⟨e, List.mem_flatMap.2 ⟨_, h.mem_listed ?_, he⟩, hmatch, hdata⟩
      exact List.ne_nil_of_mem he
    · rintro ⟨e, he, hmatch, hdata⟩
      obtain ⟨i, -, hi⟩ := List.mem_flatMap.1 he
      have hidx := findBucketIdx_congr law hmatch
      rw [h.home i e hi] at hidx
      exact ⟨e, hidx ▸ hi, hmatch, hdata⟩

theorem Inv.right_iff (h : Inv t M bs) (law : t.options.Lawful) (null : D) :
    Right null t M ↔ Few t.options M := by
  constructor
  · intro hright
    obtain ⟨L, hrun, -, hL⟩ := hright.elements
    exact ⟨L, hL, getAllElements_counts hrun⟩
  · rintro ⟨L, hL, hmax⟩
    have hle := (h.enumerates law).length_le law hL
    exact ⟨h.find_eq law null, ⟨bs, h.listed⟩, _,
      h.getAllElements_eq (by rw [h.size]; omega), h.size.symm, h.enumerates law⟩

end

/-! ## The runs -/

section
variable {opt : Options} {first last : Int} {t : Table D} {M : Key → Option D} {bs : List Int}

theorem inv_create (opt : Options) : Inv (create opt (-1) (-1) : Table D) (fun _ => none) [] :=
  ⟨⟨Circular.nil rfl rfl, List.nodup_nil, fun i => by simp [create, Table.chain]⟩, rfl, fun i =>
    List.Pairwise.nil, nofun, fun k d => by simp [create, Table.chain]⟩

theorem Inv.step (h : Inv t M bs) (law : t.options.Lawful) (op : Op D) :
    ∃ bs', Inv (op.run t) (op.apply t.options M) bs' := by
  cases op with
  | insert key data => exact h.insert law key data
  | erase key => exact h.erase law key
  | find key => exact ⟨bs, h⟩

theorem options_run (t : Table D) (op : Op D) : (op.run t).options = t.options := by
  cases op with
  | insert key data =>
    unfold Op.run Table.insert
    dsimp only
    split_ifs
    · rfl
    · exact options_link
  | erase key =>
    unfold Op.run Table.erase
    dsimp only
    split_ifs
    · rfl
    · exact options_unlink
    · rfl
    · rfl
  | find key => rfl

theorem options_runs (t : Table D) (ops : List (Op D)) :
    (ops.foldl Op.run t).options = t.options := by
  induction ops generalizing t with
  | nil => rfl
  | cons op ops ih => rw [List.foldl_cons, ih, options_run]

theorem Inv.runs (h : Inv t M bs) (law : t.options.Lawful) (ops : List (Op D)) :
    ∃ bs', Inv (ops.foldl Op.run t) (ops.foldl (Op.apply t.options) M) bs' := by
  induction ops generalizing t M bs with
  | nil => exact ⟨bs, h⟩
  | cons op ops ih =>
    obtain ⟨bs', hstep⟩ := h.step law op
    rw [List.foldl_cons, List.foldl_cons, ← options_run t op]
    rw [← options_run t op] at hstep law
    exact ih hstep law

/-- The first insertion sets the two indices. -/
theorem insert_create (opt : Options) (first last first' last' : Int) (key : Key) (data : D) :
    (create opt first last).insert key data = (create opt first' last').insert key data :=
  rfl

theorem run_create (opt : Options) (first last : Int) {op : Op D} (hop : ¬op.IsInsert) :
    op.run (create opt first last) = create opt first last := by
  cases op with
  | insert key data => exact absurd trivial hop
  | erase key => rfl
  | find key => rfl

theorem apply_empty (opt : Options) {op : Op D} (hop : ¬op.IsInsert) :
    op.apply opt (fun _ => none) = fun _ => none := by
  cases op with
  | insert key data => exact absurd trivial hop
  | erase key =>
    funext k
    unfold Op.apply
    dsimp only
    rw [ite_self]
  | find key => rfl

/-- With an insertion, a run does not depend on what the memory held. -/
theorem runs_create_of_insert (opt : Options) (first last first' last' : Int) {ops : List (Op D)}
    (hops : ∃ op ∈ ops, op.IsInsert) :
    ops.foldl Op.run (create opt first last) = ops.foldl Op.run (create opt first' last') := by
  induction ops with
  | nil => obtain ⟨op, hop, -⟩ := hops; cases hop
  | cons op ops ih =>
    rw [List.foldl_cons, List.foldl_cons]
    by_cases hop : op.IsInsert
    · cases op with
      | insert key data =>
        exact congrArg (ops.foldl Op.run) (insert_create opt first last first' last' key data)
      | erase | find => exact absurd hop id
    · rw [run_create opt first last hop, run_create opt first' last' hop]
      obtain ⟨op', hmem, hop'⟩ := hops
      rcases List.mem_cons.1 hmem with rfl | hmem
      · exact absurd hop' hop
      · exact ih ⟨op', hmem, hop'⟩

theorem runs_create_of_none (opt : Options) (first last : Int) {ops : List (Op D)}
    (hops : ∀ op ∈ ops, ¬op.IsInsert) :
    ops.foldl Op.run (create opt first last) = create opt first last ∧
      ops.foldl (Op.apply opt) (fun _ => none) = fun _ => none := by
  induction ops with
  | nil => exact ⟨rfl, rfl⟩
  | cons op ops ih =>
    obtain ⟨hop, hrest⟩ := List.forall_mem_cons.1 hops
    rw [List.foldl_cons, List.foldl_cons, run_create opt first last hop, apply_empty opt hop]
    exact ih hrest

/-- A new table has the list of its buckets only when the memory held `-1` in the two indices. -/
theorem listed_create (hlisted : Listed (create opt first last : Table D) bs) :
    first = -1 ∧ last = -1 := by
  have hnil : bs = [] := by
    by_contra hne
    obtain ⟨b, hb⟩ := List.exists_mem_of_ne_nil bs hne
    exact ((hlisted.mem b).1 hb).2 rfl
  rw [hnil] at hlisted
  exact ⟨hlisted.circular.next_head, Circular.prev_eq (A := []) (B := []) hlisted.circular⟩

/-- **The hash table**: after a run the table is the map, its list of buckets and its enumeration
are right, exactly when the run had an insertion or the memory of the table held `-1` in both
indices, and an `int` counts the keys. -/
theorem table_right_iff (law : opt.Lawful) (null : D) (first last : Int) (ops : List (Op D)) :
    Right null (ops.foldl Op.run (create opt first last)) (ops.foldl (Op.apply opt) fun _ => none) ↔
      ((∃ op ∈ ops, op.IsInsert) ∨ first = -1 ∧ last = -1) ∧
        Few opt (ops.foldl (Op.apply opt) fun _ => none) := by
  have hright : Right null (ops.foldl Op.run (create opt (-1) (-1)))
      (ops.foldl (Op.apply opt) fun _ => none) ↔
        Few opt (ops.foldl (Op.apply opt) fun _ => none) := by
    obtain ⟨bs, hinv⟩ := (inv_create opt).runs law ops
    have hiff := hinv.right_iff (by rw [options_runs]; exact law) null
    rwa [options_runs] at hiff
  by_cases hops : ∃ op ∈ ops, op.IsInsert
  · rw [and_iff_right (.inl hops), runs_create_of_insert opt first last (-1) (-1) hops]
    exact hright
  · rw [or_iff_right hops]
    constructor
    · intro h
      obtain ⟨bs, hlisted⟩ := h.listed
      rw [(runs_create_of_none opt first last fun op hmem hop => hops ⟨op, hmem, hop⟩).1] at hlisted
      obtain ⟨rfl, rfl⟩ := listed_create hlisted
      exact ⟨⟨rfl, rfl⟩, hright.1 h⟩
    · rintro ⟨⟨rfl, rfl⟩, hfew⟩
      exact hright.2 hfew

end

/-- Integers as keys, and two buckets. -/
def twoBuckets : Options := ⟨.uint64, 2, id, fun _ _ => 0, by decide, by decide⟩

/-- The keys 4 and 6 share a bucket, and 4 is removed. -/
def bucketOps : List (Op Nat) := [.insert 4 7, .insert 6 1, .insert 3 9, .erase 4, .insert 6 2]

theorem table_right_sample : Right 0 (bucketOps.foldl Op.run (create twoBuckets 12 34))
    (bucketOps.foldl (Op.apply twoBuckets) fun _ => none) := by
  refine (table_right_iff (show twoBuckets.Lawful from nofun) 0 12 34 _).2
    ⟨.inl ⟨_, List.mem_cons_self, trivial⟩, [⟨3, 9⟩, ⟨6, 2⟩], ⟨by decide, fun k d => ?_⟩, by decide⟩
  simp only [bucketOps, List.foldl_cons, List.foldl_nil, Op.apply, Options.keysMatch, twoBuckets,
    List.mem_cons, List.not_mem_nil, or_false, exists_eq_or_imp, exists_eq_left, decide_eq_true_eq]
  grind

/-- A new table in memory that held zeros: bucket 0 is in the list, and it is empty. -/
theorem create_not_listed : ¬Right 0 (create twoBuckets 0 0) fun _ => none := by
  intro h
  obtain ⟨bs, hlisted⟩ := h.listed
  exact absurd (listed_create hlisted).1 (by decide)

end CensusHt
