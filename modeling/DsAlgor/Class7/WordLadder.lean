import DsAlgor.Lib.Checked
import DsAlgor.Lib.Search

/-!
# `word_ladder.cpp`

The queue has the words of one level, the marker (the empty word), and the words of the next level
found so far (`Level`). What is searched is the relation `Next`, in which a letter is replaced by
one of those before 'z'.
-/

namespace WordLadder

open Checked Search

abbrev Word := List Char

/-- The queue, and the words that have been put into it. -/
abbrev Frontier := List Word × Finset Word

section
variable (dict : Finset Word)

/-- `'a'`, and so on, up to the one before `'z'` -/
def letters : List Char := (List.range' ('a').toNat ('z'.toNat - 'a'.toNat)).map Char.ofNat

/-- `mid` goes into the queue if it is a new word of the dictionary. -/
def offer (frontier : Frontier) (mid : Word) : Frontier :=
  let (myque, check) := frontier
  if mid ∉ check ∧ mid ∈ dict then (myque ++ [mid], insert mid check) else (myque, check)

/-- The loops over `i` and `j`. -/
def expand (word : Word) (frontier : Frontier) : Frontier :=
  (List.range word.length).foldl (fun frontier i =>
    letters.foldl (fun frontier c => offer dict frontier (word.set i c)) frontier) frontier

/-- The loop over the queue; `stop` is `end`. -/
def ladderLoop (stop : Word) : Nat → Int → List Word → Finset Word → Except Fault Int
  | 0, _, _, _ => .error .loop
  | _ + 1, _, [], _ => return 0
  | fuel + 1, count, word :: myque, check =>
    if word = stop then return count
    else if word.length = 0 ∧ myque ≠ [] then ladderLoop stop fuel (count + 1) (myque ++ [[]]) check
    else if myque ≠ [] then
      let (myque, check) := expand dict word (myque, check)
      ladderLoop stop fuel count myque check
    else ladderLoop stop fuel count myque check

def ladderLength (start stop : Word) (fuel : Nat) : Except Fault Int :=
  ladderLoop dict stop fuel 1 [start, []] ∅

/-- One letter of `w` is replaced. -/
def Replaces (ok : Char → Prop) (w v : Word) : Prop :=
  ∃ p a b q, a ≠ b ∧ ok b ∧ w = p ++ a :: q ∧ v = p ++ b :: q

/-- The words differ in one letter, and the second one is in the dictionary. -/
def Neighbour (w v : Word) : Prop := v ∈ dict ∧ Replaces (fun _ => True) w v

/-- The same with a letter other than 'z' put in. -/
def NeighbourNoZ (w v : Word) : Prop := v ∈ dict ∧ Replaces (· ≠ 'z') w v

/-- What the loops over `i` and `j` find. -/
def Next (w v : Word) : Prop := v ∈ dict ∧ ∃ i < w.length, ∃ c ∈ letters, v = w.set i c

end

/-- The words are not empty, and equally long. -/
structure Dictionary where
  words : Finset Word
  length : Nat
  pos : 0 < length
  length_eq : ∀ w ∈ words, w.length = length
  lower : ∀ w ∈ words, ∀ c ∈ w, 'a' ≤ c ∧ c ≤ 'z'

/-! ## The words that are found -/

section
variable {dict : Finset Word} {w v : Word}

theorem offer_all (dict : Finset Word) (mids myque : List Word) (check : Finset Word) :
    ∃ new : List Word,
    mids.foldl (offer dict) (myque, check) = (myque ++ new, check ∪ new.toFinset) ∧
      new.Nodup ∧ ∀ v, v ∈ new ↔ v ∈ mids ∧ v ∉ check ∧ v ∈ dict := by
  induction mids generalizing myque check with
  | nil => exact ⟨[], by simp, List.nodup_nil, by simp⟩
  | cons mid mids ih =>
    by_cases hmid : mid ∉ check ∧ mid ∈ dict
    · obtain ⟨new, hrun, hnodup, hmem⟩ := ih (myque ++ [mid]) (insert mid check)
      refine ⟨mid :: new, ?_, List.nodup_cons.2 ⟨fun h => ?_, hnodup⟩, fun v => ?_⟩
      · rw [List.foldl_cons, offer, if_pos hmid, hrun]
        simp
      · exact ((hmem mid).1 h).2.1 (Finset.mem_insert_self mid check)
      · rw [List.mem_cons, hmem, List.mem_cons, Finset.mem_insert, not_or]
        by_cases hv : v = mid
        · subst hv
          simp [hmid]
        · simp [hv]
    · obtain ⟨new, hrun, hnodup, hmem⟩ := ih myque check
      refine ⟨new, ?_, hnodup, fun v => ?_⟩
      · rw [List.foldl_cons, offer, if_neg hmid, hrun]
      · rw [hmem, List.mem_cons]
        constructor
        · exact fun h => ⟨.inr h.1, h.2⟩
        · rintro ⟨rfl | hv, hnew⟩
          · exact absurd hnew hmid
          · exact ⟨hv, hnew⟩

theorem expand_spec (dict : Finset Word) (word : Word) (myque : List Word) (check : Finset Word) :
    ∃ new : List Word,
    expand dict word (myque, check) = (myque ++ new, check ∪ new.toFinset) ∧
      new.Nodup ∧ ∀ v, v ∈ new ↔ Next dict word v ∧ v ∉ check := by
  obtain ⟨new, hrun, hnodup, hmem⟩ := offer_all dict
    ((List.range word.length).flatMap fun i => letters.map (word.set i ·)) myque check
  refine ⟨new, ?_, hnodup, fun v => ?_⟩
  · rw [← hrun, List.foldl_flatMap]
    simp only [List.foldl_map, expand]
  · rw [hmem, Next]
    simp only [List.mem_flatMap, List.mem_range, List.mem_map]
    constructor
    · rintro ⟨⟨i, hi, c, hc, rfl⟩, hcheck, hdict⟩
      exact ⟨⟨hdict, i, hi, c, hc, rfl⟩, hcheck⟩
    · rintro ⟨⟨hdict, i, hi, c, hc, rfl⟩, hcheck⟩
      exact ⟨⟨i, hi, c, hc, rfl⟩, hcheck, hdict⟩

/-! ## The levels -/

/-- **The invariant**: `cur` and `nxt` are the words before and behind the marker, on the levels `D`
and `D + 1`; the words of `done` have been taken out. -/
structure Level (dict : Finset Word) (start stop : Word) (D : Nat) (cur nxt : List Word)
    (done check : Finset Word) : Prop where
  cur_ok : ∀ w ∈ cur, w ∈ dict ∧ Steps (Next dict) D start w
  nxt_ok : ∀ w ∈ nxt, w ∈ dict ∧ Steps (Next dict) (D + 1) start w
  check_sub : ∀ w ∈ check, w ∈ done ∨ w ∈ cur ∨ w ∈ nxt
  closed : ∀ w ∈ done, ∀ v, Next dict w v → v ∈ check
  before : ∀ n < D, ∀ w, Steps (Next dict) n start w → w ∈ done
  level : ∀ w, Steps (Next dict) D start w → w ∈ done ∨ w ∈ cur
  stop_notMem : stop ∉ done

variable {start stop : Word} {D : Nat} {cur nxt : List Word} {done check : Finset Word}

theorem level_start (hstart : start ∈ dict) : Level dict start stop 0 [start] [] ∅ ∅ where
  cur_ok w hw := by
    obtain rfl := List.mem_singleton.1 hw
    exact ⟨hstart, .zero⟩
  nxt_ok := nofun
  check_sub := nofun
  closed := nofun
  before := nofun
  level w hw := by
    cases hw
    exact .inr List.mem_cons_self
  stop_notMem := Finset.notMem_empty stop

/-- A word of the level is expanded. -/
theorem Level.expand {new : List Word} (h : Level dict start stop D (w :: cur) nxt done check)
    (hw : w ≠ stop) (hnew : ∀ v, v ∈ new ↔ Next dict w v ∧ v ∉ check) :
    Level dict start stop D cur (nxt ++ new) (insert w done) (check ∪ new.toFinset) := by
  have hwstep := (h.cur_ok w List.mem_cons_self).2
  refine ⟨fun v hv => h.cur_ok v (List.mem_cons_of_mem w hv), fun v hv => ?_, fun v hv => ?_,
    fun u hu v hnext => ?_, fun n hn v hv => ?_, fun v hv => ?_, ?_⟩
  · cases List.mem_append.1 hv with
    | inl hv => exact h.nxt_ok v hv
    | inr hv =>
      have hnext := ((hnew v).1 hv).1
      exact ⟨hnext.1, hwstep.tail hnext⟩
  · rw [Finset.mem_insert, List.mem_append]
    rcases Finset.mem_union.1 hv with hv | hv
    · rcases h.check_sub v hv with hv | hv | hv
      · exact .inl (.inr hv)
      · cases List.mem_cons.1 hv with
        | inl heq => exact .inl (.inl heq)
        | inr hv => exact .inr (.inl hv)
      · exact .inr (.inr (.inl hv))
    · exact .inr (.inr (.inr (List.mem_toFinset.1 hv)))
  · rw [Finset.mem_union, List.mem_toFinset]
    rcases Finset.mem_insert.1 hu with rfl | hu
    · by_cases hv : v ∈ check
      · exact .inl hv
      · exact .inr ((hnew v).2 ⟨hnext, hv⟩)
    · exact .inl (h.closed u hu v hnext)
  · exact Finset.mem_insert_of_mem (h.before n hn v hv)
  · rw [Finset.mem_insert]
    rcases h.level v hv with hv | hv
    · exact .inl (.inr hv)
    · cases List.mem_cons.1 hv with
      | inl heq => exact .inl (.inl heq)
      | inr hv => exact .inr hv
  · rw [Finset.mem_insert, not_or]
    exact ⟨Ne.symm hw, h.stop_notMem⟩

/-- When the level is done, it and the levels before are taken out. -/
theorem Level.mem_done (h : Level dict start stop D [] nxt done check) {n : Nat} (hn : n ≤ D)
    (hw : Steps (Next dict) n start w) : w ∈ done := by
  rcases Nat.eq_or_lt_of_le hn with rfl | hlt
  · exact (h.level w hw).resolve_right List.not_mem_nil
  · exact h.before n hlt w hw

/-- The marker is taken out. -/
theorem Level.marker (h : Level dict start stop D [] nxt done check) :
    Level dict start stop (D + 1) nxt [] done check where
  cur_ok := h.nxt_ok
  nxt_ok := nofun
  check_sub w hw := by simpa using h.check_sub w hw
  closed := h.closed
  before n hn w hw := h.mem_done (Nat.le_of_lt_succ hn) hw
  level v hv := by
    cases hv with
    | @tail _ _ w _ hw hnext =>
      simpa using h.check_sub v (h.closed w (h.mem_done le_rfl hw) v hnext)
  stop_notMem := h.stop_notMem

/-- Nothing is left. -/
theorem Level.unreachable (h : Level dict start stop D [] [] done check) (n : Nat) :
    ¬ Steps (Next dict) n start stop := by
  have hall : ∀ n w, Steps (Next dict) n start w → w ∈ done := by
    intro n w hw
    induction hw with
    | zero => exact h.mem_done (Nat.zero_le D) .zero
    | tail _ hnext ih => simpa using h.check_sub _ (h.closed _ (ih h) _ hnext)
  exact fun hstop => h.stop_notMem (hall n stop hstop)

/-! ## The loop -/

/-- The number of words on a shortest chain for `r`, or 0 if there is no chain. -/
def Shortest (r : Word → Word → Prop) (start stop : Word) (x : Int) : Prop :=
  (∃ n : Nat, x = n + 1 ∧ IsLeast {n | Steps r n start stop} n) ∨
    x = 0 ∧ ∀ n, ¬ Steps r n start stop

/-- The words that can still go into the queue and those in it, and the marker in front. -/
def weight (dict check : Finset Word) (cur nxt : List Word) : Nat :=
  2 * ((dict \ check).card + cur.length + nxt.length) + if cur = [] then 1 else 0

/-- Expanding a word makes the weight less. -/
theorem weight_expand {new : List Word} (hnodup : new.Nodup)
    (hnew : ∀ v ∈ new, v ∈ dict ∧ v ∉ check) :
    weight dict (check ∪ new.toFinset) cur (nxt ++ new) < weight dict check (w :: cur) nxt := by
  have hcard : (dict \ (check ∪ new.toFinset)).card + new.length = (dict \ check).card := by
    have hsub : new.toFinset ⊆ dict \ check := fun v hv =>
      Finset.mem_sdiff.2 (hnew v (List.mem_toFinset.1 hv))
    have hsdiff : dict \ (check ∪ new.toFinset) = (dict \ check) \ new.toFinset := by
      ext v
      simp [and_assoc]
    rw [hsdiff, ← List.toFinset_card_of_nodup hnodup]
    exact Finset.card_sdiff_add_card_eq_card hsub
  simp only [weight, List.length_append, List.length_cons]
  split <;> simp <;> omega

theorem ladderLoop_ends (hdict : ∀ w ∈ dict, w ≠ []) (hstop : stop ∈ dict)
    (h : Level dict start stop D cur nxt done check) : ∃ x,
    Ends (fun fuel => ladderLoop dict stop fuel (D + 1) (cur ++ [] :: nxt) check) x ∧
      Shortest (Next dict) start stop x := by
  induction hm : weight dict check cur nxt using Nat.strong_induction_on
    generalizing D cur nxt done check with
  | _ m ih =>
    subst hm
    cases cur with
    | nil =>
      have hne : ([] : Word) ≠ stop := fun heq => hdict stop hstop heq.symm
      cases nxt with
      | nil =>
        refine ⟨0, ⟨2, fun fuel hfuel => ?_⟩, .inr ⟨rfl, h.unreachable⟩⟩
        obtain ⟨fuel, rfl⟩ := Nat.exists_eq_add_of_le' hfuel
        simp [ladderLoop, hne, pure, Except.pure]
      | cons w nxt =>
        have hlt : weight dict check (w :: nxt) [] < weight dict check [] (w :: nxt) := by
          simp [weight]
        obtain ⟨x, hends, hx⟩ := ih _ hlt h.marker rfl
        refine ⟨x, .succ ?_, hx⟩
        have hcount : (D : Int) + 1 + 1 = (D + 1 : Nat) + 1 := by push_cast; rfl
        simpa [ladderLoop, hne, hcount] using hends
    | cons w cur =>
      obtain ⟨hw, hsteps⟩ := h.cur_ok w List.mem_cons_self
      by_cases hws : w = stop
      · subst hws
        refine ⟨D + 1, ⟨1, fun fuel hfuel => ?_⟩, .inl ⟨D, rfl, hsteps, fun n hn => ?_⟩⟩
        · obtain ⟨fuel, rfl⟩ := Nat.exists_eq_add_of_le' hfuel
          simp [ladderLoop, pure, Except.pure]
        · by_contra hlt
          exact h.stop_notMem (h.before n (not_le.1 hlt) _ hn)
      · obtain ⟨new, hexp, hnodup, hnew⟩ := expand_spec dict w (cur ++ [] :: nxt) check
        have hlt : weight dict (check ∪ new.toFinset) cur (nxt ++ new) <
            weight dict check (w :: cur) nxt := by
          refine weight_expand hnodup fun v hv => ?_
          obtain ⟨hnext, hcheck⟩ := (hnew v).1 hv
          exact ⟨hnext.1, hcheck⟩
        obtain ⟨x, hends, hx⟩ := ih _ hlt (h.expand hws hnew) rfl
        refine ⟨x, .succ ?_, hx⟩
        simpa [ladderLoop, hws, hdict w hw, hexp] using hends

theorem ladderLength_ends (hdict : ∀ w ∈ dict, w ≠ []) (hstart : start ∈ dict)
    (hstop : stop ∈ dict) : ∃ x, Ends (ladderLength dict start stop) x ∧
      Shortest (Next dict) start stop x :=
  ladderLoop_ends hdict hstop (level_start hstart)

end

/-! ## The letter 'z' -/

section
variable {dict : Finset Word} {D : Dictionary} {w v start stop : Word} {n : Nat} {c : Char}

theorem mem_letters : c ∈ letters ↔ 'a' ≤ c ∧ c ≤ 'z' ∧ c ≠ 'z' := by
  have hlast : c ≤ 'z' ∧ c ≠ 'z' ↔ c.toNat < 'z'.toNat := by
    have hle : c ≤ 'z' ↔ c.toNat ≤ 'z'.toNat := Iff.rfl
    rw [hle, ne_eq, ← Char.toNat_inj, Nat.lt_iff_le_and_ne]
  have hfirst : 'a' ≤ c ↔ 'a'.toNat ≤ c.toNat := Iff.rfl
  rw [hlast, hfirst, letters, List.mem_map]
  constructor
  · rintro ⟨k, hk, rfl⟩
    rw [List.mem_range'_1] at hk
    have hz : 'z'.toNat = 122 := rfl
    have ha : 'a'.toNat = 97 := rfl
    have hvalid : k.isValidChar := .inl (by omega)
    have hnat : (Char.ofNat k).toNat = k := by
      rw [Char.ofNat, dif_pos hvalid]
      rfl
    omega
  · rintro ⟨ha, hz⟩
    refine ⟨c.toNat, ?_, Char.ofNat_toNat c⟩
    rw [List.mem_range'_1]
    omega

theorem next_of_noZ (h : NeighbourNoZ D.words w v) : Next D.words w v := by
  obtain ⟨hv, p, a, b, q, -, hz, rfl, rfl⟩ := h
  have hb := D.lower _ hv b (by simp)
  refine ⟨hv, p.length, by simp, b, mem_letters.2 ⟨hb.1, hb.2, hz⟩, ?_⟩
  rw [List.set_append_right _ _ le_rfl, Nat.sub_self, List.set_cons_zero]

theorem noZ_of_next (h : Next dict w v) : v = w ∨ NeighbourNoZ dict w v := by
  obtain ⟨hv, i, hi, c, hc, rfl⟩ := h
  by_cases hsame : w[i] = c
  · exact .inl (by rw [← hsame, List.set_getElem_self])
  · refine .inr ⟨hv, w.take i, w[i], c, w.drop (i + 1), hsame, (mem_letters.1 hc).2.2, ?_, ?_⟩
    · rw [← List.drop_eq_getElem_cons hi, List.take_append_drop]
    · rw [List.set_eq_take_append_cons_drop, if_pos hi]

theorem neighbour_of_noZ (h : NeighbourNoZ dict w v) : Neighbour dict w v := by
  obtain ⟨hv, p, a, b, q, hab, -, hw, heq⟩ := h
  exact ⟨hv, p, a, b, q, hab, trivial, hw, heq⟩

/-- Steps that replace a letter by itself are left out. -/
theorem steps_noZ (h : Steps (Next dict) n start stop) :
    ∃ m ≤ n, Steps (NeighbourNoZ dict) m start stop := by
  induction h with
  | zero => exact ⟨0, le_rfl, .zero⟩
  | tail _ hnext ih =>
    obtain ⟨m, hm, hsteps⟩ := ih
    cases noZ_of_next hnext with
    | inl heq => exact ⟨m, Nat.le_succ_of_le hm, heq ▸ hsteps⟩
    | inr hstep => exact ⟨m + 1, Nat.succ_le_succ hm, hsteps.tail hstep⟩

/-- `ladderLength` returns the number of words on a shortest chain, or 0. -/
def FindsShortest (dict : Finset Word) (start stop : Word) : Prop :=
  ∃ x, Ends (ladderLength dict start stop) x ∧ Shortest (Neighbour dict) start stop x

/-- There is no chain, or there is a shortest one in which no 'z' is put in. -/
def WithoutZ (dict : Finset Word) (start stop : Word) : Prop :=
  (∀ n, ¬ Steps (Neighbour dict) n start stop) ∨
    ∃ n, Steps (NeighbourNoZ dict) n start stop ∧
      ∀ m, Steps (Neighbour dict) m start stop → n ≤ m

/-- What is the shortest for the loops is so for the dictionary. -/
theorem shortest_iff {x : Int} (h : Shortest (Next D.words) start stop x) :
    Shortest (Neighbour D.words) start stop x ↔ WithoutZ D.words start stop := by
  have hnext : ∀ {n}, Steps (NeighbourNoZ D.words) n start stop →
      Steps (Next D.words) n start stop := fun h => h.mono fun _ _ => next_of_noZ
  have hneighbour : ∀ {n}, Steps (NeighbourNoZ D.words) n start stop →
      Steps (Neighbour D.words) n start stop := fun h => h.mono fun _ _ => neighbour_of_noZ
  constructor
  · rintro (⟨n, hx, -, hleast⟩ | ⟨hx, hnone⟩)
    · rcases h with ⟨d, hd, hsteps, -⟩ | ⟨hx', -⟩
      · obtain rfl : n = d := by omega
        obtain ⟨m, hmn, hm⟩ := steps_noZ hsteps
        obtain rfl : m = n := le_antisymm hmn (hleast (hneighbour hm))
        exact .inr ⟨m, hm, fun k hk => hleast hk⟩
      · omega
    · exact .inl hnone
  · rintro (hnone | ⟨n, hn, hleast⟩)
    · rcases h with ⟨d, -, hsteps, -⟩ | ⟨hx, -⟩
      · obtain ⟨m, -, hm⟩ := steps_noZ hsteps
        exact absurd (hneighbour hm) (hnone m)
      · exact .inr ⟨hx, hnone⟩
    · rcases h with ⟨d, hd, hsteps, hmin⟩ | ⟨-, hnone⟩
      · obtain ⟨m, hmd, hm⟩ := steps_noZ hsteps
        have hnd := hleast m (hneighbour hm)
        have hdn := hmin (hnext hn)
        obtain rfl : n = d := le_antisymm (hnd.trans hmd) hdn
        exact .inl ⟨n, hd, hneighbour hn, fun k hk => hleast k hk⟩
      · exact absurd (hnext hn) (hnone n)

theorem Dictionary.ne_nil (D : Dictionary) : ∀ w ∈ D.words, w ≠ [] := by
  intro w hw
  rw [← List.length_pos_iff, D.length_eq w hw]
  exact D.pos

/-- The words "a" and "z". -/
def twoWords : Dictionary where
  words := {['a'], ['z']}
  length := 1
  pos := by decide
  length_eq := by decide
  lower := by
    simp only [Finset.mem_insert, Finset.mem_singleton, forall_eq_or_imp, forall_eq,
      List.mem_singleton]
    decide

example : ladderLength twoWords.words ['a'] ['z'] 5 = .ok 0 := by decide

end

end WordLadder
