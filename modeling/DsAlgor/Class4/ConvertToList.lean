import DsAlgor.Lib.Chain
import DsAlgor.Lib.Pointers
import DsAlgor.Lib.Traversals

/-!
# `convertToList.c`

`Stored h p t`: the tree of nodes `t` stands in the heap from `p` on. `convertToList` leaves the
nodes in preorder along `right`, and touches no other node (`convertToList_spec`).
-/

namespace Class4

open Pointers

structure Heap where
  left : Ptr → Ptr
  right : Ptr → Ptr

/-- What is done at `root` behind the two calls. -/
def link (h : Heap) (root leftTail : Ptr) : Except Fault Heap := do
  let mut h := h
  if leftTail ≠ 0 then h := { h with right := ← store h.right leftTail (← load h.right root) }
  if (← load h.left root) ≠ 0 then
    h := { h with right := ← store h.right root (← load h.left root) }
  return { h with left := ← store h.left root 0 }

/-- The tail of the list and the heap behind the call. -/
def convertToList : Nat → Heap → Ptr → Except Fault (Ptr × Heap)
  | 0, _, _ => .error .loop
  | fuel + 1, h, root => do
    if root = 0 then return (0, h)
    else
      let (leftTail, h) ← convertToList fuel h (← load h.left root)
      let (rightTail, h) ← convertToList fuel h (← load h.right root)
      let h ← link h root leftTail
      if rightTail ≠ 0 then return (rightTail, h)
      else if leftTail ≠ 0 then return (leftTail, h)
      else return (root, h)

/-- The nodes of the tree at `p`. -/
def Stored (h : Heap) : Ptr → BinaryTree Ptr → Prop
  | p, .nil => p = 0
  | p, .node q l r => p = q ∧ q ≠ 0 ∧ Stored h (h.left q) l ∧ Stored h (h.right q) r

/-- A list along `right` without children on the left. -/
structure Flat (h : Heap) (p : Ptr) (ps : List Ptr) (e : Ptr) : Prop where
  chain : Chain h.right p ps e
  left : ∀ q ∈ ps, h.left q = 0

/-- `h` and `h'` differ at the nodes `ps` at most. -/
structure Frame (h h' : Heap) (ps : List Ptr) : Prop where
  left : ∀ q, q ∉ ps → h'.left q = h.left q
  right : ∀ q, q ∉ ps → h'.right q = h.right q

section
variable {h h' : Heap} {p : Ptr} {t : BinaryTree Ptr}

theorem Stored.ne_zero (hst : Stored h p t) : ∀ q ∈ t.preorder, q ≠ 0 := by
  induction t generalizing p with
  | nil => exact nofun
  | node a l r ihl ihr =>
    obtain ⟨_, ha, hl, hr⟩ := hst
    intro q hq
    simp only [BinaryTree.preorder, List.mem_cons, List.mem_append] at hq
    obtain rfl | hq | hq := hq
    · exact ha
    · exact ihl hl q hq
    · exact ihr hr q hq

theorem Stored.frame {ps : List Ptr} (hst : Stored h p t) (hf : Frame h h' ps)
    (hdis : ∀ q ∈ t.preorder, q ∉ ps) : Stored h' p t := by
  induction t generalizing p with
  | nil => exact hst
  | node a l r ihl ihr =>
    obtain ⟨hp, ha, hl, hr⟩ := hst
    have hout : a ∉ ps := hdis a (by simp [BinaryTree.preorder])
    refine ⟨hp, ha, ?_, ?_⟩
    · rw [hf.left a hout]
      exact ihl hl fun q hq => hdis q (by simp [BinaryTree.preorder, hq])
    · rw [hf.right a hout]
      exact ihr hr fun q hq => hdis q (by simp [BinaryTree.preorder, hq])

theorem Flat.frame {ps qs : List Ptr} {e : Ptr} (hflat : Flat h p qs e) (hf : Frame h h' ps)
    (hdis : ∀ q ∈ qs, q ∉ ps) : Flat h' p qs e := by
  refine ⟨hflat.chain.congr fun q hq => hf.right q (hdis q hq), fun q hq => ?_⟩
  rw [hf.left q (hdis q hq), hflat.left q hq]

theorem Frame.mono {ps qs : List Ptr} (hf : Frame h h' ps) (hsub : ps ⊆ qs) : Frame h h' qs :=
  ⟨fun q hq => hf.left q fun hmem => hq (hsub hmem),
    fun q hq => hf.right q fun hmem => hq (hsub hmem)⟩

theorem Frame.trans {h'' : Heap} {ps : List Ptr} (hf : Frame h h' ps) (hf' : Frame h' h'' ps) :
    Frame h h'' ps := by
  refine ⟨fun q hq => ?_, fun q hq => ?_⟩
  · rw [hf'.left q hq, hf.left q hq]
  · rw [hf'.right q hq, hf.right q hq]

variable {root tail : Ptr}

theorem link_empty (hroot : root ≠ 0) (hleft : h.left root = 0) :
    link h root 0 = .ok { h with left := Function.update h.left root 0 } := by
  simp [link, load_ok hroot, store_ok hroot, hleft, bind, Except.bind, pure, Except.pure]

theorem link_full (hroot : root ≠ 0) (htail : tail ≠ 0) (hleft : h.left root ≠ 0) :
    link h root tail = .ok {
      left := Function.update h.left root 0
      right := Function.update (Function.update h.right tail (h.right root)) root
        (h.left root) } := by
  simp [link, load_ok hroot, store_ok hroot, store_ok htail, htail, hleft, bind, Except.bind, pure,
    Except.pure]

/-- The lists of the two subtrees are linked behind the root. -/
theorem link_spec {ls rs : List Ptr} (hroot : root ≠ 0) (hls : ∀ q ∈ ls, q ≠ 0)
    (hnd : (root :: (ls ++ rs)).Nodup) (hl : Flat h (h.left root) ls 0)
    (hr : Flat h (h.right root) rs 0) : ∃ h',
    link h root (ls.getLast?.getD 0) = .ok h' ∧ Flat h' root (root :: (ls ++ rs)) 0 ∧
      Frame h h' (root :: ls) := by
  obtain ⟨hout, hnd⟩ := List.nodup_cons.1 hnd
  obtain ⟨_, _, hdis⟩ := List.nodup_append.1 hnd
  have hout' : ∀ q ∈ ls ++ rs, q ≠ root := fun q hq heq => hout (heq ▸ hq)
  cases ls using List.reverseRecOn with
  | nil =>
    have hempty : h.left root = 0 := hl.chain
    refine ⟨_, link_empty hroot hempty, ⟨⟨rfl, hr.chain⟩, ?_⟩, ⟨?_, fun q _ => rfl⟩⟩
    · intro q hq
      cases List.mem_cons.1 hq with
      | inl heq => simp [heq]
      | inr hq => simp [hout' q hq, hr.left q hq]
    · intro q hq
      exact Function.update_of_ne (List.ne_of_not_mem_cons hq) _ _
  | append_singleton ls x =>
    have hx : x ≠ 0 := hls x (by simp)
    have hxroot : x ≠ root := hout' x (by simp)
    have hfull : h.left root ≠ 0 := by
      cases ls with
      | nil => exact hl.chain.1 ▸ hx
      | cons y ls => exact hl.chain.1 ▸ hls y (by simp)
    have hlast : (ls ++ [x]).getLast?.getD 0 = x := by simp
    rw [hlast]
    have hxls : ∀ q ∈ ls, q ≠ x := by
      intro q hq heq
      obtain ⟨_, _, hdis'⟩ := List.nodup_append.1 (List.nodup_append.1 hnd).1
      exact hdis' q hq x (by simp) heq
    have hxrs : ∀ q ∈ rs, q ≠ x := fun q hq heq => hdis x (by simp) q hq heq.symm
    refine ⟨_, link_full hroot hx hfull, ⟨⟨rfl, ?_⟩, ?_⟩, ⟨?_, ?_⟩⟩
    · simp only [Function.update_self]
      refine Chain.append.2 ⟨h.right root, hl.chain.redirect ?_ ?_, hr.chain.congr ?_⟩
      · simp [hxroot]
      · intro q hq
        simp [hxls q hq, hout' q (by simp [hq])]
      · intro q hq
        simp [hxrs q hq, hout' q (by simp [hq])]
    · intro q hq
      cases List.mem_cons.1 hq with
      | inl heq => simp [heq]
      | inr hq =>
        simp only [Function.update_of_ne (hout' q hq)]
        cases List.mem_append.1 hq with
        | inl hq => exact hl.left q hq
        | inr hq => exact hr.left q hq
    · intro q hq
      exact Function.update_of_ne (List.ne_of_not_mem_cons hq) _ _
    · intro q hq
      have hne : q ≠ x := fun heq => hq (by simp [heq])
      simp [List.ne_of_not_mem_cons hq, hne]

/-- The tail that is returned. -/
theorem tail_eq {ls rs : List Ptr} (hls : ∀ q ∈ ls, q ≠ 0) (hrs : ∀ q ∈ rs, q ≠ 0) :
    ((root :: (ls ++ rs)).getLast?.getD 0) =
      if rs.getLast?.getD 0 ≠ 0 then rs.getLast?.getD 0
      else if ls.getLast?.getD 0 ≠ 0 then ls.getLast?.getD 0 else root := by
  cases rs using List.reverseRecOn with
  | append_singleton rs y =>
    have hy : y ≠ 0 := hrs y (by simp)
    simp [List.getLast?_cons, List.getLast?_append, hy]
  | nil =>
    cases ls using List.reverseRecOn with
    | append_singleton ls x =>
      have hx : x ≠ 0 := hls x (by simp)
      simp [List.getLast?_cons, hx]
    | nil => simp

theorem convertToList_run (hst : Stored h p t) (hnd : t.preorder.Nodup) : ∃ h',
    (∀ fuel > t.height, convertToList fuel h p = .ok (t.preorder.getLast?.getD 0, h')) ∧
      Flat h' p t.preorder 0 ∧ Frame h h' t.preorder := by
  induction t generalizing h p with
  | nil =>
    obtain rfl : p = 0 := hst
    refine ⟨h, fun fuel hfuel => ?_, ⟨rfl, nofun⟩, ⟨fun q _ => rfl, fun q _ => rfl⟩⟩
    obtain ⟨fuel, rfl⟩ := Nat.exists_eq_succ_of_ne_zero (Nat.ne_zero_of_lt hfuel)
    rfl
  | node a l r ihl ihr =>
    obtain ⟨rfl, hp, hl, hr⟩ := hst
    obtain ⟨hndl, hndr, hpl, hpr, hlr⟩ := BinaryTree.apart_of_nodup hnd
    have hrl : ∀ q ∈ r.preorder, q ∉ l.preorder := fun q hq hq' => hlr q hq' hq
    obtain ⟨h1, hrun1, hflat1, hframe1⟩ := ihl hl hndl
    -- the right subtree is as it was
    have hright : h1.right p = h.right p := hframe1.right p hpl
    have hr1 : Stored h1 (h1.right p) r := by
      rw [hright]
      exact hr.frame hframe1 hrl
    obtain ⟨h2, hrun2, hflat2, hframe2⟩ := ihr hr1 hndr
    have hleft2 : h2.left p = h.left p := by rw [hframe2.left p hpr, hframe1.left p hpl]
    have hright2 : h2.right p = h1.right p := hframe2.right p hpr
    obtain ⟨h3, hlink, hflat3, hframe3⟩ := link_spec hp hl.ne_zero hnd
      (by rw [hleft2]; exact hflat1.frame hframe2 hlr) (by rw [hright2]; exact hflat2)
    refine ⟨h3, ?_, hflat3, ?_⟩
    · intro fuel hfuel
      obtain ⟨fuel, rfl⟩ := Nat.exists_eq_succ_of_ne_zero (Nat.ne_zero_of_lt hfuel)
      rw [BinaryTree.height] at hfuel
      rw [convertToList, if_neg hp]
      simp only [load_ok hp, bind, Except.bind, hrun1 fuel (by omega), hrun2 fuel (by omega), hlink,
        BinaryTree.preorder, tail_eq hl.ne_zero hr1.ne_zero, pure, Except.pure]
      split
      · rfl
      · split <;> rfl
    · have hsub : l.preorder ⊆ (BinaryTree.node p l r).preorder := fun q hq => by
        simp [BinaryTree.preorder, hq]
      have hsub' : r.preorder ⊆ (BinaryTree.node p l r).preorder := fun q hq => by
        simp [BinaryTree.preorder, hq]
      have hsub'' : p :: l.preorder ⊆ (BinaryTree.node p l r).preorder := fun q hq => by
        cases List.mem_cons.1 hq with
        | inl heq => simp [BinaryTree.preorder, heq]
        | inr hq => exact hsub hq
      exact ((hframe1.mono hsub).trans (hframe2.mono hsub')).trans (hframe3.mono hsub'')

end

/-- **The nodes are left in preorder, and the last of them is returned.** -/
theorem convertToList_spec {h : Heap} {root : Ptr} {t : BinaryTree Ptr} (hst : Stored h root t)
    (hnd : t.preorder.Nodup) : ∃ h',
    Halts (fun fuel => convertToList fuel h root) (.ok (t.preorder.getLast?.getD 0, h')) ∧
      (∀ q ∈ t.preorder, h'.left q = 0) ∧ Chain h'.right root t.preorder 0 ∧
      ∀ q, q ∉ t.preorder → h'.left q = h.left q ∧ h'.right q = h.right q := by
  obtain ⟨h', hrun, hflat, hframe⟩ := convertToList_run hst hnd
  exact ⟨h', ⟨t.height + 1, hrun⟩, hflat.left, hflat.chain, fun q hq =>
    ⟨hframe.left q hq, hframe.right q hq⟩⟩

theorem convertToList_three : ∃ h' : Heap,
    Halts (fun fuel => convertToList fuel
      { left := fun q => if q = 1 then 2 else 0, right := fun q => if q = 1 then 3 else 0 } 1)
      (.ok (3, h')) ∧ (∀ q ∈ [1, 2, 3], h'.left q = 0) ∧ Chain h'.right 1 [1, 2, 3] 0 := by
  obtain ⟨h', hrun, hleft, hchain, _⟩ := @convertToList_spec
    { left := fun q => if q = 1 then 2 else 0, right := fun q => if q = 1 then 3 else 0 } 1
    (.node 1 (.node 2 .nil .nil) (.node 3 .nil .nil)) (by simp [Stored]) (by decide)
  exact ⟨h', hrun, hleft, hchain⟩

end Class4
