import DsAlgor.Lib.PriorityQueue
import DsAlgor.Lib.Select

/-!
# `kthLargest.c`

The k-th largest element of a stream. `std::priority_queue` has an element on top that the
comparator puts in front of no other one. For `cmp` that is the largest, so what `kthLargest` keeps
and returns is the largest element so far (`kthLargest_iff`); with the smallest on top it would be
right (`kthLargest_smallest`).
-/

namespace Class5

open Select

/-- `cmp()(a, b)` -/
def cmp (a b : Int) : Bool := if a > b then false else true

inductive ErrorCode
  | noError
  | error
deriving DecidableEq

/-- `x` may be on top of a heap that `before` orders and that holds `y`. -/
def OnTop (before : Int → Int → Bool) (x y : Int) : Prop := x = y ∨ before x y = false

instance (before : Int → Int → Bool) : DecidableRel (OnTop before) := fun x y =>
  inferInstanceAs (Decidable (x = y ∨ before x y = false))

section
variable {before : Int → Int → Bool} (heap : PriorityQueue Int (OnTop before))

/-- The heap, the error code and `outValue`; a heap without elements has no top. -/
def kthLargest (q : heap.Queue) (data : Int) (k : Nat) (outValue : Option Int) :
    Option (heap.Queue × ErrorCode × Option Int) :=
  if heap.size q < k then
    let q := heap.add q data
    if heap.size q = k then do
      let top ← heap.peek q
      return (q, .noError, some top)
    else return (q, .error, outValue)
  else do
    let top ← heap.peek q
    let q := if top < data then heap.add (heap.remove q) data else q
    let top ← heap.peek q
    return (q, .noError, some top)

/-- What the calls for the elements of a stream return, with the same heap and `outValue`. -/
def feed (k : Nat) : heap.Queue → Option Int → List Int → Option (List (ErrorCode × Option Int))
  | _, _, [] => some []
  | q, outValue, data :: stream => do
    let (q, code, outValue) ← kthLargest heap q data k outValue
    return (code, outValue) :: (← feed k q outValue stream)

end

/-- The k-th largest element. -/
def kthOfLargest (k : Nat) (l : List Int) : Option Int := kth (α := Intᵒᵈ) k l

/-- The answers that are asked for. -/
def Answers (k : Nat) (stream : List Int) (answers : List (ErrorCode × Option Int)) : Prop :=
  answers.length = stream.length ∧ ∀ n, n < stream.length → ∀ code out,
    answers[n]? = some (code, out) →
      (n + 1 < k → code = .error) ∧
      (k ≤ n + 1 → code = .noError ∧ out = kthOfLargest k (stream.take (n + 1)))

/-- The answers of a heap that has `out seen` on top after the elements `seen`. -/
def answersFrom (k : Nat) (out : List Int → Option Int) (seen : List Int) (outValue : Option Int) :
    List Int → List (ErrorCode × Option Int)
  | [] => []
  | data :: stream =>
    if (seen ++ [data]).length < k then
      (.error, outValue) :: answersFrom k out (seen ++ [data]) outValue stream
    else
      (.noError, out (seen ++ [data])) ::
        answersFrom k out (seen ++ [data]) (out (seen ++ [data])) stream

section
variable {k : Nat} {out : List Int → Option Int} {seen stream : List Int} {outValue : Option Int}

theorem answersFrom_length : (answersFrom k out seen outValue stream).length = stream.length := by
  induction stream generalizing seen outValue with
  | nil => rfl
  | cons data stream ih =>
    rw [answersFrom]
    split
    · rw [List.length_cons, ih, List.length_cons]
    · rw [List.length_cons, ih, List.length_cons]

theorem answersFrom_get {n : Nat} {code : ErrorCode} {o : Option Int}
    (h : (answersFrom k out seen outValue stream)[n]? = some (code, o)) :
    ((seen ++ stream.take (n + 1)).length < k → code = .error) ∧
    (k ≤ (seen ++ stream.take (n + 1)).length →
      code = .noError ∧ o = out (seen ++ stream.take (n + 1))) := by
  induction stream generalizing seen outValue n with
  | nil => cases h
  | cons data stream ih =>
    have hsplit : ∀ m, seen ++ (data :: stream).take (m + 1) = (seen ++ [data]) ++
      stream.take m := by
      intro m
      rw [List.take_succ_cons, List.append_assoc]
      rfl
    rw [hsplit]
    rw [answersFrom] at h
    cases n with
    | zero =>
      rw [List.take_zero, List.append_nil]
      split at h
      · rename_i hlt
        obtain ⟨rfl, rfl⟩ := Prod.mk.inj (Option.some.inj h)
        exact ⟨fun _ => rfl, fun hle => absurd hlt (not_lt.2 hle)⟩
      · rename_i hlt
        obtain ⟨rfl, rfl⟩ := Prod.mk.inj (Option.some.inj h)
        exact ⟨fun hlt' => absurd hlt' hlt, fun _ => ⟨rfl, rfl⟩⟩
    | succ n =>
      split at h
      · exact ih h
      · exact ih h

end

/-! ## Runs -/

section
variable {before : Int → Int → Bool} (heap : PriorityQueue Int (OnTop before)) {k : Nat}

/-- After `seen`: `rest` is what the heap does not hold any more; `R` relates it to what it
holds. -/
structure Fed (k : Nat) (R : Multiset Int → Multiset Int → Prop) (q : heap.Queue)
    (seen : List Int) :
    Prop where
  split : ∃ rest, (seen : Multiset Int) = heap.elems q + rest ∧ R (heap.elems q) rest
  card : heap.size q = min seen.length k

/-- What a relation has to keep for `kthLargest` to have `out` on top. -/
structure Keeps (k : Nat) (R : Multiset Int → Multiset Int → Prop) (out : List Int → Option Int) :
    Prop where
  fill : ∀ s, R s 0
  replace : ∀ q rest t data, R (heap.elems q) rest → heap.peek q = some t → t < data →
    R (data ::ₘ (heap.elems q).erase t) (t ::ₘ rest)
  skip : ∀ q rest t data, R (heap.elems q) rest → heap.peek q = some t → data ≤ t →
    R (heap.elems q) (data ::ₘ rest)
  top : ∀ q rest (seen : List Int), (seen : Multiset Int) = heap.elems q + rest →
    R (heap.elems q) rest → heap.size q = k → heap.peek q = out seen

variable {heap} {R : Multiset Int → Multiset Int → Prop} {out : List Int → Option Int}
variable {q : heap.Queue} {seen stream : List Int}

/-- One call. -/
theorem Fed.call (data : Int) (outValue : Option Int) (hR : Keeps heap k R out) (hk : 1 ≤ k)
    (h : Fed heap k R q seen) :
    ∃ q', Fed heap k R q' (seen ++ [data]) ∧ kthLargest heap q data k outValue =
      some (q', if (seen ++ [data]).length < k then (.error, outValue)
        else (.noError, out (seen ++ [data]))) := by
  obtain ⟨⟨rest, hsplit, hrel⟩, hcard⟩ := h
  have hlen : seen.length = heap.size q + rest.card := by
    rw [← Multiset.coe_card, hsplit, Multiset.card_add]
    rfl
  have htop : ∀ q' rest', ((seen ++ [data] : List Int) : Multiset Int) = heap.elems q' + rest' →
      R (heap.elems q') rest' → heap.size q' = k →
        ∃ top, heap.peek q' = some top ∧ out (seen ++ [data]) = some top := by
    intro q' rest' hsplit' hrel' hsize'
    have hpeek := hR.top q' rest' _ hsplit' hrel' hsize'
    obtain ⟨top, htop⟩ := heap.exists_peek_of_size (q := q') (by omega)
    exact ⟨top, htop, hpeek.symm.trans htop⟩
  by_cases hfill : heap.size q < k
  · -- all elements are held
    have hrest : rest = 0 := Multiset.card_eq_zero.1 (by omega)
    subst hrest
    have hsize : heap.size (heap.add q data) = heap.size q + 1 := by
      rw [PriorityQueue.size, heap.elems_add, Multiset.card_cons]
      rfl
    have hsplit' : ((seen ++ [data] : List Int) : Multiset Int) =
        heap.elems (heap.add q data) + 0 := by
      rw [Multiset.add_zero]
      exact heap.split_add (by rw [hsplit, Multiset.add_zero]) data
    have hrel' := hR.fill (heap.elems (heap.add q data))
    refine ⟨heap.add q data, ⟨⟨0, hsplit', hrel'⟩, ?_⟩, ?_⟩
    · rw [List.length_append, List.length_singleton]
      omega
    · rw [kthLargest, if_pos hfill, List.length_append, List.length_singleton]
      by_cases hfull : heap.size (heap.add q data) = k
      · obtain ⟨top, htop, hout⟩ := htop _ _ hsplit' hrel' hfull
        simp only [if_pos hfull, htop, hout]
        rw [if_neg (by omega)]
        rfl
      · rw [if_neg hfull, if_pos (by omega)]
        rfl
  · obtain ⟨t, ht⟩ := heap.exists_peek_of_size (q := q) (by omega)
    have hlong : ¬ (seen ++ [data]).length < k := by
      rw [List.length_append, List.length_singleton]
      omega
    rw [if_neg hlong]
    by_cases hlt : t < data
    · -- the top makes room
      have helems := heap.elems_replace ht data
      have hsize := heap.size_replace ht data
      have hsplit' := heap.split_replace hsplit ht data
      have hrel' := hR.replace q rest t data hrel ht hlt
      rw [← helems] at hrel'
      refine ⟨heap.add (heap.remove q) data, ⟨⟨_, hsplit', hrel'⟩, ?_⟩, ?_⟩
      · rw [List.length_append, List.length_singleton]
        omega
      · obtain ⟨top, htop, hout⟩ := htop _ _ hsplit' hrel' (by omega)
        simp only [kthLargest, if_neg hfill, ht, if_pos hlt, htop, hout, bind, Option.bind]
        rfl
    · have hsplit' := heap.split_skip hsplit data
      have hrel' := hR.skip q rest t data hrel ht (by omega)
      refine ⟨q, ⟨⟨_, hsplit', hrel'⟩, ?_⟩, ?_⟩
      · rw [List.length_append, List.length_singleton]
        omega
      · obtain ⟨top, htop, hout⟩ := htop _ _ hsplit' hrel' (by omega)
        simp only [kthLargest, if_neg hfill, ht, if_neg hlt, hout, bind, Option.bind]
        rw [← hout, ← hR.top q _ _ hsplit' hrel' (by omega), ht]
        rfl

/-- All calls. -/
theorem Fed.feed {outValue : Option Int} (hR : Keeps heap k R out) (hk : 1 ≤ k)
    (h : Fed heap k R q seen) :
    feed heap k q outValue stream = some (answersFrom k out seen outValue stream) := by
  induction stream generalizing q seen outValue with
  | nil => rfl
  | cons data stream ih =>
    obtain ⟨q', hq', hcall⟩ := h.call data outValue hR hk
    rw [Class5.feed, hcall, answersFrom]
    split
    · simp only [bind, Option.bind, ih hq']
      rfl
    · simp only [bind, Option.bind, ih hq']
      rfl

theorem fed_empty (hR : Keeps heap k R out) : Fed heap k R heap.empty [] :=
  ⟨⟨0, by rw [heap.elems_empty]; rfl, hR.fill _⟩, by
    rw [PriorityQueue.size, heap.elems_empty]
    simp⟩

end

/-! ## What is on top -/

theorem kthOfLargest_eq_iff {k : Nat} {l : List Int} {x : Int} (hk : 1 ≤ k) :
    kthOfLargest k l = some x ↔
      x ∈ l ∧ l.countP (x < ·) < k ∧ k ≤ l.countP (x ≤ ·) :=
  kth_eq_iff (α := Intᵒᵈ) hk

section
variable {k : Nat}

theorem onTop_cmp {x y : Int} : OnTop cmp x y ↔ y ≤ x := by
  unfold OnTop cmp
  split
  · exact iff_of_true (.inr rfl) (by omega)
  · refine ⟨fun h => ?_, fun h => .inl (by omega)⟩
    cases h with
    | inl heq => exact heq.ge
    | inr h => cases h

/-- With `cmp` the largest element is on top. -/
theorem peek_largest (heap : PriorityQueue Int (OnTop cmp)) {q : heap.Queue} {t : Int}
    (h : heap.peek q = some t) : ∀ x ∈ heap.elems q, x ≤ t := by
  obtain ⟨y, hy, hmax⟩ := Multiset.exists_max_image id (heap.elems_ne_zero h)
  intro x hx
  exact onTop_cmp.1 (heap.peek_first q t h ⟨y, hy, fun z hz => onTop_cmp.2 (hmax z hz)⟩ x hx)

/-- What the heap does not hold is not greater than some element that it holds. -/
def SomeAbove (held rest : Multiset Int) : Prop := ∀ y ∈ rest, ∃ x ∈ held, y ≤ x

theorem keeps_largest (heap : PriorityQueue Int (OnTop cmp)) (hk : 1 ≤ k) :
    Keeps heap k SomeAbove (kthOfLargest 1) where
  fill s y hy := absurd hy (Multiset.notMem_zero y)
  replace q rest t data h ht hlt y hy := by
    refine ⟨data, Multiset.mem_cons_self .., ?_⟩
    rcases Multiset.mem_cons.1 hy with rfl | hy
    · exact hlt.le
    · obtain ⟨x, hx, hyx⟩ := h y hy
      exact hyx.trans ((peek_largest heap ht x hx).trans hlt.le)
  skip q rest t data h ht hlt y hy := by
    rcases Multiset.mem_cons.1 hy with rfl | hy
    · exact ⟨t, heap.peek_mem q t ht, hlt⟩
    · exact h y hy
  top q rest seen hsplit h hsize := by
    obtain ⟨t, ht⟩ := heap.exists_peek_of_size (q := q) (by omega)
    have hmem : ∀ {x}, x ∈ seen ↔ x ∈ heap.elems q ∨ x ∈ rest := by
      intro x
      rw [← Multiset.mem_coe, hsplit, Multiset.mem_add]
    have hmax : ∀ x ∈ seen, ¬ t < x := by
      intro x hx
      rcases hmem.1 hx with hheld | hrest
      · exact not_lt.2 (peek_largest heap ht x hheld)
      · obtain ⟨y, hy, hxy⟩ := h x hrest
        exact not_lt.2 (hxy.trans (peek_largest heap ht y hy))
    have hin : t ∈ seen := hmem.2 (.inl (heap.peek_mem q t ht))
    refine ht.trans ((kthOfLargest_eq_iff le_rfl).2 ⟨hin, ?_, ?_⟩).symm
    · rw [List.countP_eq_zero.2 fun x hx => by simpa using hmax x hx]
      exact Nat.one_pos
    · exact List.countP_pos_iff.2 ⟨t, hin, by simp⟩

/-! ## The smallest on top -/

theorem onTop_swap {x y : Int} : OnTop (fun a b => cmp b a) x y ↔ x ≤ y :=
  (or_congr_left eq_comm).trans onTop_cmp

/-- With the comparator the other way round the smallest element is on top. -/
theorem peek_smallest (heap : PriorityQueue Int (OnTop fun a b => cmp b a)) {q : heap.Queue}
    {t : Int} (h : heap.peek q = some t) : ∀ x ∈ heap.elems q, t ≤ x := by
  obtain ⟨y, hy, hmin⟩ := Multiset.exists_min_image id (heap.elems_ne_zero h)
  intro x hx
  exact onTop_swap.1 (heap.peek_first q t h ⟨y, hy, fun z hz => onTop_swap.2 (hmin z hz)⟩ x hx)

/-- What the heap does not hold is not greater than anything that it holds. -/
def AllAbove (held rest : Multiset Int) : Prop := ∀ y ∈ rest, ∀ x ∈ held, y ≤ x

theorem keeps_smallest (heap : PriorityQueue Int (OnTop fun a b => cmp b a)) (hk : 1 ≤ k) :
    Keeps heap k AllAbove (kthOfLargest k) where
  fill s y hy := absurd hy (Multiset.notMem_zero y)
  replace q rest t data h ht hlt y hy x hx := by
    have hyt : y ≤ t := by
      rcases Multiset.mem_cons.1 hy with rfl | hy
      · exact le_rfl
      · exact h y hy t (heap.peek_mem q t ht)
    rcases Multiset.mem_cons.1 hx with rfl | hx
    · exact hyt.trans hlt.le
    · exact hyt.trans (peek_smallest heap ht x (Multiset.mem_of_mem_erase hx))
  skip q rest t data h ht hle y hy x hx := by
    rcases Multiset.mem_cons.1 hy with rfl | hy
    · exact hle.trans (peek_smallest heap ht x hx)
    · exact h y hy x hx
  top q rest seen hsplit h hsize := by
    obtain ⟨t, ht⟩ := heap.exists_peek_of_size (q := q) (by omega)
    have hheld := heap.peek_mem q t ht
    exact ht.trans (kth_of_split (α := Intᵒᵈ) hsplit hsize hheld
      (fun x hx => peek_smallest heap ht x hx) (fun y hy => h y hy t hheld)).symm

end

/-! ## The answers -/

section
variable {k : Nat} {stream : List Int} {out : List Int → Option Int}

/-- The answers are right when what is on top is the k-th largest. -/
theorem answers_iff : Answers k stream (answersFrom k out [] none stream) ↔
    ∀ n, n < stream.length → k ≤ n + 1 →
      out (stream.take (n + 1)) = kthOfLargest k (stream.take (n + 1)) := by
  have hlen : (answersFrom k out [] none stream).length = stream.length := answersFrom_length
  have htake : ∀ {n}, n < stream.length → ([] ++ stream.take (n + 1)).length = n + 1 := by
    intro n hn
    rw [List.nil_append, List.length_take]
    omega
  refine ⟨fun h n hn hk => ?_, fun h => ⟨hlen, fun n hn code o hget => ?_⟩⟩
  · obtain ⟨⟨code, o⟩, hget⟩ : ∃ r, (answersFrom k out [] none stream)[n]? = some r :=
      ⟨_, List.getElem?_eq_getElem (hlen.symm ▸ hn)⟩
    have hout := (answersFrom_get hget).2 (by rw [htake hn]; exact hk)
    exact hout.2.symm.trans ((h.2 n hn code o hget).2 hk).2
  · have hout := answersFrom_get hget
    rw [htake hn] at hout
    refine ⟨hout.1, fun hk => ⟨(hout.2 hk).1, (hout.2 hk).2.trans (h n hn hk)⟩⟩

/-- Of at least two different elements the largest is not the k-th largest of k. -/
theorem largest_ne {l : List Int} (hk : 2 ≤ k) (hnodup : l.Nodup) (hl : k ≤ l.length) :
    kthOfLargest 1 l ≠ kthOfLargest k l := by
  intro heq
  have hperm := List.perm_insertionSort (α := Intᵒᵈ) (· ≤ ·) l
  have hlen : 1 - 1 < (List.insertionSort (α := Intᵒᵈ) (· ≤ ·) l).length := by
    rw [hperm.length_eq]
    exact lt_of_lt_of_le (by omega) hl
  have hsame := (List.getElem?_inj hlen (hperm.nodup_iff.2 hnodup)).1 heq
  omega

theorem feed_cmp (heap : PriorityQueue Int (OnTop cmp)) (hk : 1 ≤ k) :
    feed heap k heap.empty none stream = some (answersFrom k (kthOfLargest 1) [] none stream) :=
  (fed_empty (keeps_largest heap hk)).feed (keeps_largest heap hk) hk

/-- A stream of `k` elements or more, with `k` at least 2, gets a wrong answer. -/
theorem feed_wrong (heap : PriorityQueue Int (OnTop cmp)) (hk : 2 ≤ k) (hlong : k ≤ stream.length)
    (hnodup : stream.Nodup) :
    ¬ ∃ answers, feed heap k heap.empty none stream = some answers ∧ Answers k stream answers := by
  intro h
  obtain ⟨answers, hfeed, hanswers⟩ := h
  rw [feed_cmp heap (by omega)] at hfeed
  obtain rfl := Option.some.inj hfeed
  have hsame := answers_iff.1 hanswers (k - 1) (by omega) (by omega)
  have hback : k - 1 + 1 = k := by omega
  rw [hback] at hsame
  refine largest_ne hk (hnodup.sublist (List.take_sublist k stream)) ?_ hsame
  rw [List.length_take]
  omega

end

/-- `kthLargest` answers right exactly when the largest element is asked for, or the stream is too
short for an answer. With the smallest element on top it would always be right. -/
theorem kthLargest_iff (k : Nat) (stream : List Int) (hk : 1 ≤ k) (hnodup : stream.Nodup) :
    (∀ heap : PriorityQueue Int (OnTop cmp),
      (∃ answers, feed heap k heap.empty none stream = some answers ∧ Answers k stream answers) ↔
        k = 1 ∨ stream.length < k) ∧
    ∀ heap : PriorityQueue Int (OnTop fun a b => cmp b a),
      ∃ answers, feed heap k heap.empty none stream = some answers ∧ Answers k stream answers := by
  refine ⟨fun heap => ⟨fun h => ?_, fun h => ⟨_, feed_cmp heap hk, answers_iff.2 ?_⟩⟩, fun heap =>
    ⟨_, (fed_empty (keeps_smallest heap hk)).feed (keeps_smallest heap hk) hk,
      answers_iff.2 fun n hn hkn => rfl⟩⟩
  · by_contra hno
    exact feed_wrong heap (by omega) (by omega) hnodup h
  · intro n hn hkn
    rcases h with rfl | hshort
    · rfl
    · omega

theorem kthLargest_iff_three :
    (∀ heap : PriorityQueue Int (OnTop cmp),
      (∃ answers, feed heap 2 heap.empty none [5, 1, 3] = some answers ∧
        Answers 2 [5, 1, 3] answers) ↔ 2 = 1 ∨ [5, 1, 3].length < 2) ∧
    ∀ heap : PriorityQueue Int (OnTop fun a b => cmp b a),
      ∃ answers, feed heap 2 heap.empty none [5, 1, 3] = some answers ∧
        Answers 2 [5, 1, 3] answers :=
  kthLargest_iff 2 [5, 1, 3] (by decide) (by decide)

/-- The second largest of two elements is not answered. -/
theorem kthLargest_second : ¬ ∃ answers,
    feed (PriorityQueue.least (OnTop cmp)) 2 [] none [1, 2] = some answers ∧
      Answers 2 [1, 2] answers :=
  feed_wrong (PriorityQueue.least (OnTop cmp)) le_rfl le_rfl (by decide)

end Class5
