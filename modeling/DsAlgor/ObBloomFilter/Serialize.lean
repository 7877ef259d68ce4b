import DsAlgor.ObBloomFilter.Probes
import DsAlgor.Lib.Bytes

/-!
# The image of a filter in a buffer

`serialize` writes the header `BinData` (24 bytes, of which it leaves the first eight, `version`, as
they are) and the bits; `deserialize` reads them back. The buffer is the list of its bytes, so that
`buf_len` and `data_len` are its length. Where the header is there and the bits are not,
`deserialize` reports success and has loaded nothing (`deserialize_reports_iff`).
-/

namespace ObBloomFilter

open BitArray Bytes

/-- `sizeof(BinData)`. -/
def sizeofBinData : Nat := 24

def Filter.getSerializeSize (f : Filter) : Int := sizeofBinData + calcNbyte f.nbit

/-- The bytes that `memcpy` takes from `bits_`. -/
def Filter.source (f : Filter) : Option (List Byte) :=
  if calcNbyte f.nbit = 0 then some []
  else do
    let bits ← f.bits
    if 0 ≤ calcNbyte f.nbit ∧
      calcNbyte f.nbit ≤ bits.length then some (bits.take (calcNbyte f.nbit).toNat) else none

/-- `serialize`: the buffer and the position afterwards. -/
def Filter.serialize (f : Filter) (buf : Option (List Byte)) (pos : Nat) :
    Option (Ret × Option (List Byte) × Int) :=
  match buf with
  | none => some (.invalidArgument, none, pos)
  | some b =>
    if (b.length : Int) - pos < f.getSerializeSize then some (.invalidArgument, some b, pos)
    else do
      let bits ← f.source
      let b := writeInt64 b (pos + 8) f.nhash
      let b := writeInt64 b (pos + 16) f.nbit
      return (.success, some (write b (pos + sizeofBinData) bits), pos + f.getSerializeSize)

/-- `bin_data->nhash` and `bin_data->nbit`. -/
def imageNhash (b : List Byte) (pos : Nat) : Int := readInt64 b (pos + 8)
def imageNbit (b : List Byte) (pos : Nat) : Int := readInt64 b (pos + 16)

/-- `deserialize`: the filter and the position afterwards. -/
def Filter.deserialize (alloc : Int → Bool) (f : Filter) (buf : Option (List Byte)) (pos : Nat) :
    Option (Ret × Filter × Int) :=
  match buf with
  | none => some (.invalidArgument, f, pos)
  | some b =>
    if (b.length : Int) - pos ≤ sizeofBinData then some (.invalidArgument, f, pos)
    else
      let nbyte := calcNbyte (imageNbit b pos)
      let loaded (bits : Option (List Byte)) : Filter := ⟨imageNhash b pos, imageNbit b pos, bits⟩
      if (b.length : Int) - pos < sizeofBinData + nbyte then some (.success, f, pos)
      else if nbyte ≠ 0 ∧ alloc (int32 nbyte) = false then
        some (.error, loaded none, pos + (loaded none).getSerializeSize)
      else if nbyte = 0 then some (.success, loaded f.bits, pos + (loaded f.bits).getSerializeSize)
      -- the block has `int32 nbyte` bytes, `memcpy` writes `nbyte`
      else if nbyte < 0 ∨ int32 nbyte < nbyte then none
      else
        let bits := some (slice b (pos + sizeofBinData) nbyte.toNat)
        some (.success, loaded bits, pos + (loaded bits).getSerializeSize)

/-! ## What is claimed of `deserialize` -/

/-- From `pos` on there are a header and as many bytes of bits as it says. -/
def Complete (buf : Option (List Byte)) (pos : Nat) : Prop :=
  ∃ b, buf = some b ∧ (sizeofBinData : Int) ≤ b.length - pos ∧
    sizeofBinData + calcNbyte (imageNbit b pos) ≤ b.length - pos

/-- The filter is that of the image, and the position is behind it. -/
structure Loaded (b : List Byte) (pos : Nat) (f : Filter) (pos' : Int) : Prop where
  nhash : f.nhash = imageNhash b pos
  nbit : f.nbit = imageNbit b pos
  bits : (f.bits.getD []).take (calcNbyte f.nbit).toNat = slice b (pos + sizeofBinData)
    (calcNbyte f.nbit).toNat
  pos : pos' = pos + sizeofBinData + calcNbyte f.nbit

/-- Success is reported only of a complete image that has been loaded, and a truncated image changes
nothing. -/
def Reports (alloc : Int → Bool) (f : Filter) (buf : Option (List Byte)) (pos : Nat) : Prop :=
  ∃ ret f' pos', f.deserialize alloc buf pos = some (ret, f', pos') ∧
    (ret = .success → Complete buf pos ∧ ∀ b, buf = some b → Loaded b pos f' pos') ∧
    (¬ Complete buf pos → ret ≠ .success ∧ f' = f ∧ pos' = pos)

/-- The filter is `g`, and the position is `pos'`. -/
def Restores (alloc : Int → Bool) (f g : Filter) (b : List Byte) (pos : Nat) (pos' : Int) : Prop :=
  ∃ f', f.deserialize alloc (some b) pos = some (.success, f', pos') ∧ f'.nhash = g.nhash ∧
    f'.nbit = g.nbit ∧ (f'.bits.getD []).take (calcNbyte g.nbit).toNat = g.bits.getD []

/-- A filter without bits, or with a block of the size its number of bits asks for. -/
structure Sound (f : Filter) : Prop where
  nhash : -2 ^ 63 ≤ f.nhash ∧ f.nhash < 2 ^ 63
  bits : f.bits = none ∧ f.nbit = 0 ∨
    ∃ bits, f.bits = some bits ∧ 0 < f.nbit ∧ f.nbit < 2 ^ 34 - 7 ∧
    (bits.length : Int) = calcNbyte f.nbit

/-- The bits are all there where the header is, and they fit into a block. -/
def Readable (alloc : Int → Bool) (buf : Option (List Byte)) (pos : Nat) : Prop :=
  ∀ b, buf = some b → (sizeofBinData : Int) < b.length - pos →
    sizeofBinData + calcNbyte (imageNbit b pos) ≤ b.length - pos ∧
    (calcNbyte (imageNbit b pos) = 0 ∨ alloc (int32 (calcNbyte (imageNbit b pos))) = false ∨
      0 < calcNbyte (imageNbit b pos) ∧ calcNbyte (imageNbit b pos) < 2 ^ 31)

theorem int32_lt_self {n : Int} (h : 0 < n) : int32 n < n ↔ 2 ^ 31 ≤ n := by
  unfold int32
  constructor
  · intro hlt
    by_contra hsmall
    rw [Int.bmod_eq_of_le (by omega) (by omega)] at hlt
    exact lt_irrefl _ hlt
  · intro hle
    have := Int.bmod_lt (x := n) (m := 2 ^ 32) (by norm_num)
    omega

section
variable {alloc : Int → Bool} {f g : Filter} {b : List Byte} {pos : Nat}

/-- The image is complete and there is a block for its bits. -/
theorem deserialize_of_complete (h : (sizeofBinData : Int) < b.length - pos)
    (hall : sizeofBinData + calcNbyte (imageNbit b pos) ≤ b.length - pos)
    (hpos : 0 < calcNbyte (imageNbit b pos))
    (hsmall : calcNbyte (imageNbit b pos) < 2 ^ 31)
    (halloc : alloc (int32 (calcNbyte (imageNbit b pos))) = true) :
    f.deserialize alloc (some b) pos = some (.success, ⟨imageNhash b pos, imageNbit b pos,
      some (slice b (pos + sizeofBinData) (calcNbyte (imageNbit b pos)).toNat)⟩,
      pos + (sizeofBinData + calcNbyte (imageNbit b pos))) := by
  have hfit : ¬ (calcNbyte (imageNbit b pos) < 0 ∨ int32 (calcNbyte (imageNbit b pos)) < calcNbyte
    (imageNbit b pos)) := by
    rw [int32_lt_self hpos]
    omega
  unfold Filter.deserialize
  dsimp only
  rw [if_neg (by omega), if_neg (by omega), if_neg (by rw [halloc]; simp),
    if_neg (by omega), if_neg hfit]
  rfl

/-- An image without bits leaves `bits_` as it is. -/
theorem deserialize_of_empty (h : (sizeofBinData : Int) < b.length - pos)
    (hzero : calcNbyte (imageNbit b pos) = 0) :
    f.deserialize alloc (some b) pos =
      some (Ret.success, Filter.mk (imageNhash b pos) (imageNbit b pos) f.bits,
        (pos : Int) + sizeofBinData) := by
  unfold Filter.deserialize Filter.getSerializeSize
  dsimp only
  rw [if_neg (by omega), if_neg (by omega), if_neg fun hand => hand.1 hzero, if_pos hzero,
    hzero, add_zero]

/-- The allocation fails. -/
theorem deserialize_of_alloc (h : (sizeofBinData : Int) < b.length - pos)
    (hall : sizeofBinData + calcNbyte (imageNbit b pos) ≤ b.length - pos)
    (hne : calcNbyte (imageNbit b pos) ≠ 0)
    (halloc : alloc (int32 (calcNbyte (imageNbit b pos))) = false) :
    ∃ f' pos', f.deserialize alloc (some b) pos = some (.error, f', pos') := by
  unfold Filter.deserialize
  dsimp only
  rw [if_neg (by omega), if_neg (by omega), if_pos ⟨hne, halloc⟩]
  exact ⟨_, _, rfl⟩

theorem deserialize_of_short (h : (b.length : Int) - pos ≤ sizeofBinData) :
    f.deserialize alloc (some b) pos = some (Ret.invalidArgument, f, (pos : Int)) := by
  unfold Filter.deserialize
  dsimp only
  rw [if_pos h]

/-- The bits are cut off: a warning, and success. -/
theorem deserialize_of_truncated (h : (sizeofBinData : Int) < b.length - pos)
    (htrunc : (b.length : Int) - pos < sizeofBinData + calcNbyte (imageNbit b pos)) :
    f.deserialize alloc (some b) pos = some (Ret.success, f, (pos : Int)) := by
  unfold Filter.deserialize
  dsimp only
  rw [if_neg (by omega), if_pos htrunc]

/-- The copy runs past the end of the block. -/
theorem deserialize_of_overrun (h : (sizeofBinData : Int) < b.length - pos)
    (hall : sizeofBinData + calcNbyte (imageNbit b pos) ≤ b.length - pos)
    (hne : calcNbyte (imageNbit b pos) ≠ 0)
    (halloc : alloc (int32 (calcNbyte (imageNbit b pos))) ≠ false)
    (hbad : ¬ (0 < calcNbyte (imageNbit b pos) ∧ calcNbyte (imageNbit b pos) < 2 ^ 31)) :
    f.deserialize alloc (some b) pos = none := by
  have hover : calcNbyte (imageNbit b pos) < 0 ∨ int32 (calcNbyte (imageNbit b pos)) < calcNbyte
    (imageNbit b pos) := by
    by_cases hneg : calcNbyte (imageNbit b pos) < 0
    · exact .inl hneg
    · refine .inr ((int32_lt_self (by omega)).2 ?_)
      omega
  unfold Filter.deserialize
  dsimp only
  rw [if_neg (by omega), if_neg (by omega), if_neg fun hand => halloc hand.2, if_neg hne,
    if_pos hover]

theorem Reports.readable {buf : Option (List Byte)} (h : Reports alloc f buf pos) :
    Readable alloc buf pos := by
  obtain ⟨ret, f', pos', hrun, hsuccess, -⟩ := h
  rintro b rfl hheader
  have hall : sizeofBinData + calcNbyte (imageNbit b pos) ≤ b.length - pos := by
    by_contra htrunc
    rw [deserialize_of_truncated hheader (by omega)] at hrun
    obtain rfl := (Prod.ext_iff.1 (Option.some.inj hrun)).1
    obtain ⟨⟨b', hb', -, hle⟩, -⟩ := hsuccess rfl
    cases hb'
    exact htrunc hle
  refine ⟨hall, ?_⟩
  by_contra hno
  push Not at hno
  obtain ⟨hne, halloc, hbad⟩ := hno
  rw [deserialize_of_overrun hheader hall hne halloc fun hand =>
    absurd (hbad hand.1) (not_le.2 hand.2)] at hrun
  cases hrun

theorem Readable.reports {buf : Option (List Byte)} (h : Readable alloc buf pos) (f : Filter) :
    Reports alloc f buf pos := by
  cases buf with
  | none =>
    exact ⟨.invalidArgument, f, pos, rfl, fun hno => (nomatch hno),
      fun _ => ⟨fun hno => (nomatch hno), rfl, rfl⟩⟩
  | some b =>
    by_cases hheader : (sizeofBinData : Int) < b.length - pos
    · obtain ⟨hall, hblock⟩ := h b rfl hheader
      have hcomplete : Complete (some b) pos := ⟨b, rfl, le_of_lt hheader, hall⟩
      by_cases hzero : calcNbyte (imageNbit b pos) = 0
      · refine ⟨_, _, _, deserialize_of_empty hheader hzero, fun _ => ⟨hcomplete, ?_⟩, fun hno =>
          absurd hcomplete hno⟩
        intro b' hb
        cases hb
        refine ⟨rfl, rfl, ?_, ?_⟩
        · show List.take (calcNbyte (imageNbit b pos)).toNat _ = slice b _
            (calcNbyte (imageNbit b pos)).toNat
          rw [hzero]
          rfl
        · show _ = _ + calcNbyte (imageNbit b pos)
          rw [hzero, add_zero]
      · cases halloc : alloc (int32 (calcNbyte (imageNbit b pos))) with
        | false =>
          obtain ⟨f', pos', hrun⟩ := deserialize_of_alloc (f := f) hheader hall hzero halloc
          exact ⟨_, f', pos', hrun, fun hno => (nomatch hno), fun hno => absurd hcomplete hno⟩
        | true =>
          have hsmall : 0 < calcNbyte (imageNbit b pos) ∧ calcNbyte (imageNbit b pos) < 2 ^ 31 := by
            rcases hblock with hno | hno | hsmall
            · exact absurd hno hzero
            · rw [halloc] at hno
              cases hno
            · exact hsmall
          refine ⟨_, _, _, deserialize_of_complete hheader hall hsmall.1 hsmall.2 halloc, fun _ =>
            ⟨hcomplete, ?_⟩, fun hno => absurd hcomplete hno⟩
          intro b' hb
          cases hb
          refine ⟨rfl, rfl, ?_, ?_⟩
          · show List.take _ (slice b _ _) = _
            rw [slice, List.take_take, Nat.min_self]
          · show _ = _
            rw [add_assoc]
    · refine ⟨_, f, pos, deserialize_of_short (not_lt.1 hheader), fun hno => (nomatch hno),
        fun _ => ?_⟩
      exact ⟨fun hno => (nomatch hno), rfl, rfl⟩

/-! ## Back from the buffer -/

/-- The bytes that are copied are those of the block. -/
theorem Sound.source (h : Sound g) :
    g.source = some (g.bits.getD []) ∧ ((g.bits.getD []).length : Int) = calcNbyte g.nbit ∧
      (g.nbit = 0 ∨ 0 < g.nbit ∧ g.nbit < 2 ^ 34 - 7) := by
  rcases h.bits with ⟨hnone, hzero⟩ | ⟨bits, hsome, hpos, hlt, hlen⟩
  · have hbyte : calcNbyte g.nbit = 0 := by
      rw [hzero]
      rfl
    refine ⟨?_, ?_, .inl hzero⟩
    · unfold Filter.source
      rw [if_pos hbyte, hnone]
      rfl
    · rw [hbyte, hnone]
      rfl
  · refine ⟨?_, ?_, .inr ⟨hpos, hlt⟩⟩
    · unfold Filter.source
      rw [hsome, ← hlen]
      by_cases hnil : (bits.length : Int) = 0
      · rw [if_pos hnil]
        have : bits = [] := List.length_eq_zero_iff.1 (by omega)
        rw [this]
        rfl
      · rw [if_neg hnil]
        dsimp only [bind, Option.bind]
        rw [if_pos ⟨by omega, le_rfl⟩, Int.toNat_natCast, List.take_length]
        rfl
    · rw [hsome]
      exact hlen

/-- What `serialize` writes. -/
theorem Sound.image {b₀ : List Byte} {pos' : Int} (h : Sound g)
    (hrun : g.serialize (some b₀) pos = some (.success, some b, pos')) :
    imageNhash b pos = g.nhash ∧ imageNbit b pos = g.nbit ∧
      slice b (pos + sizeofBinData) (calcNbyte g.nbit).toNat = g.bits.getD [] ∧
      sizeofBinData + calcNbyte g.nbit ≤ b.length - pos ∧ pos' = pos +
        (sizeofBinData + calcNbyte g.nbit) := by
  obtain ⟨hsource, hlen, hnbit⟩ := h.source
  unfold Filter.serialize at hrun
  dsimp only at hrun
  split_ifs at hrun with hshort
  · cases hrun
  · rw [hsource] at hrun
    obtain ⟨hb, hpos'⟩ := Prod.ext_iff.1 (Prod.ext_iff.1 (Option.some.inj hrun)).2
    have hb : _ = b := Option.some.inj hb
    rw [Filter.getSerializeSize, ← hlen] at hshort
    have hsize : sizeofBinData = 24 := rfl
    rw [hsize] at hshort hb ⊢
    have hroom : pos + 24 + (g.bits.getD []).length ≤ b₀.length := by omega
    have hlen1 : (writeInt64 b₀ (pos + 8) g.nhash).length = b₀.length :=
      length_writeInt64 (by omega)
    have hlen2 : (writeInt64 (writeInt64 b₀ (pos + 8) g.nhash) (pos + 16) g.nbit).length =
      b₀.length := by
      rw [length_writeInt64 (by omega), hlen1]
    have hroom2 : pos + 24 + (g.bits.getD []).length ≤
        (writeInt64 (writeInt64 b₀ (pos + 8) g.nhash) (pos + 16) g.nbit).length := by
      rw [hlen2]
      exact hroom
    refine ⟨?_, ?_, ?_, ?_, ?_⟩
    · rw [imageNhash, ← hb, readInt64, slice_write_of_disjoint hroom2 (by omega)]
      show readInt64 _ (pos + 8) = g.nhash
      rw [readInt64_writeInt64_of_ne (by omega) (by omega),
        readInt64_writeInt64 (by omega) h.nhash.1 h.nhash.2]
    · rw [imageNbit, ← hb, readInt64, slice_write_of_disjoint hroom2 (by omega)]
      show readInt64 _ (pos + 16) = g.nbit
      rw [readInt64_writeInt64 (by omega) (by omega) (by omega)]
    · rw [← hb, ← hlen, Int.toNat_natCast, slice_write_self hroom2]
    · rw [← hb, length_write hroom2, hlen2, ← hlen]
      push_cast
      omega
    · exact hpos'.symm

theorem Sound.restores_iff {b₀ : List Byte} {pos' : Int} (h : Sound g)
    (hrun : g.serialize (some b₀) pos = some (.success, some b, pos')) :
    Restores alloc f g b pos pos' ↔ (g.nbit = 0 → (sizeofBinData : Int) < b.length - pos) ∧
      (g.nbit ≠ 0 → alloc (int32 (calcNbyte g.nbit)) = true) := by
  obtain ⟨hnhash, hnbit, hslice, hall, rfl⟩ := h.image hrun
  obtain ⟨-, hlen, hrange⟩ := h.source
  rcases hrange with hzero | ⟨hpos, hlt⟩
  · -- no bits
    have hbyte : calcNbyte (imageNbit b pos) = 0 := by
      rw [hnbit, hzero]
      rfl
    have hnil : g.bits.getD [] = [] := by
      rw [← hnbit, hbyte] at hlen
      exact List.length_eq_zero_iff.1 (by omega)
    constructor
    · rintro ⟨f', hback, -⟩
      refine ⟨fun _ => ?_, fun hne => absurd hzero hne⟩
      by_contra hshort
      rw [deserialize_of_short (not_lt.1 hshort)] at hback
      cases hback
    · rintro ⟨hmore, -⟩
      refine ⟨⟨imageNhash b pos, imageNbit b pos, f.bits⟩, ?_, hnhash, hnbit, ?_⟩
      · rw [deserialize_of_empty (hmore hzero) hbyte, ← hnbit, hbyte, add_zero]
      · rw [hnil, ← hnbit, hbyte]
        rfl
  · obtain ⟨n, hn⟩ := Int.eq_ofNat_of_zero_le (le_of_lt hpos)
    have hbyte : 0 < calcNbyte g.nbit ∧ calcNbyte g.nbit < 2 ^ 31 := by
      rw [hn, calcNbyte_natCast]
      omega
    have hheader : (sizeofBinData : Int) < b.length - pos := by omega
    rw [← hnbit] at hbyte hall hslice ⊢
    constructor
    · rintro ⟨f', hback, -⟩
      refine ⟨fun _ => hheader, fun _ => ?_⟩
      cases halloc : alloc (int32 (calcNbyte (imageNbit b pos))) with
      | true => rfl
      | false =>
        obtain ⟨f'', pos'', hfail⟩ := deserialize_of_alloc (f := f) hheader hall (by omega) halloc
        rw [hfail] at hback
        cases hback
    · rintro ⟨-, halloc⟩
      have hne : imageNbit b pos ≠ 0 := by omega
      refine ⟨_, deserialize_of_complete hheader hall hbyte.1 hbyte.2 (halloc hne),
        hnhash, hnbit, ?_⟩
      show List.take _ (slice b _ _) = _
      rw [← hnbit, ← hslice, slice, List.take_take, Nat.min_self]

end

/-- **What `deserialize` reports**, and what comes back of a filter that has been serialized. -/
theorem deserialize_reports_iff (alloc : Int → Bool) (f : Filter) (buf : Option (List Byte))
    (pos : Nat) :
    (Reports alloc f buf pos ↔ Readable alloc buf pos) ∧
      ∀ g b₀ b pos', Sound g → g.serialize (some b₀) pos = some (.success, some b, pos') →
        (Restores alloc f g b pos pos' ↔ (g.nbit = 0 → (sizeofBinData : Int) < b.length - pos) ∧
          (g.nbit ≠ 0 → alloc (int32 (calcNbyte g.nbit)) = true)) :=
  ⟨⟨Reports.readable, fun h => h.reports f⟩, fun _ _ _ _ hsound hrun => hsound.restores_iff hrun⟩

/-- A filter of 16 bits. -/
def sixteen : Filter := ⟨3, 16, some [0x81, 0x02]⟩

theorem sixteen_sound : Sound sixteen := by
  refine ⟨by decide, .inr ⟨[0x81, 0x02], rfl, by decide, by decide, ?_⟩⟩
  decide

theorem sixteen_restored :
    ∃ b pos', sixteen.serialize (some (List.replicate 26 0)) 0 = some (.success, some b, pos') ∧
      Restores (fun _ => true) new sixteen b 0 pos' := by
  refine ⟨_, _, rfl, ?_⟩
  rw [(deserialize_reports_iff (fun _ => true) new none 0).2 sixteen (List.replicate 26 0) _ _
    sixteen_sound rfl]
  exact ⟨fun hno => absurd hno (by decide), fun _ => rfl⟩

/-- A header that announces two bytes of bits, and one byte behind it. -/
def truncated : List Byte := encode 8 1 ++ encode 8 3 ++ encode 8 16 ++ [0xff]

theorem truncated_reported : new.deserialize (fun _ => true)
    (some truncated) 0 = some (.success, new, 0) ∧ ¬ Reports (fun _ => true) new
    (some truncated) 0 := by
  have hnbit : imageNbit truncated 0 = 16 := by decide
  have hheader : (sizeofBinData : Int) < truncated.length - (0 : Nat) := by decide
  refine ⟨?_, fun h => ?_⟩
  · apply deserialize_of_truncated hheader
    rw [hnbit]
    decide
  · have hall := (h.readable truncated rfl hheader).1
    rw [hnbit] at hall
    exact absurd hall (by decide)

end ObBloomFilter
