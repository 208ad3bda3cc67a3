/-
  Nemu.Memory.DramRefinement

  The DDR3 model refines a flat little-endian byte array.

  The row buffers are a write-through cache of `dram`: `Coherent` says that
  every valid row buffer holds the bytes of the row it names.  One burst keeps
  this and reads or writes the eight bytes of its aligned window; an access is
  one burst, or two when it leaves the window of the first; and a run of
  accesses follows by the simulation rule of `DetSystem`.
-/

import Nemu.Lib.DetSystem
import Nemu.Memory.Dram
import Nemu.Memory.FlatMem

namespace Nemu

open ByteSeq Outcome DetSystem

/-! ## Memory operations -/

/-- A call of one of the four access functions, together with the bytes that its
    uninitialised stack buffer happens to hold. -/
inductive MemOp where
  | hwaddrRead (stack : Nat → Byte) (addr : Addr) (len : Width)
  | hwaddrWrite (stack : Nat → Byte) (addr : Addr) (len : Width) (data : BitVec 32)
  | swaddrRead (stack : Nat → Byte) (addr : Addr) (len : Width)
  | swaddrWrite (stack : Nat → Byte) (addr : Addr) (len : Width) (data : BitVec 32)

/-- One call on the DDR3 model; a read answers with its value. -/
def Ddr3.step (s : Ddr3) : MemOp → Except Abort (Option (BitVec 32) × Ddr3)
  | .hwaddrRead stack addr len => do
      let (v, s) ← s.hwaddrRead stack addr len.bytes
      return (some v, s)
  | .hwaddrWrite stack addr len data => do
      let s ← s.hwaddrWrite stack addr len.bytes data
      return (none, s)
  | .swaddrRead stack addr len => do
      let (v, s) ← s.swaddrRead stack addr len.bytes
      return (some v, s)
  | .swaddrWrite stack addr len data => do
      let s ← s.swaddrWrite stack addr len.bytes data
      return (none, s)

/-- The same call on flat memory. -/
def FlatMem.step (m : FlatMem) : MemOp → Except Abort (Option (BitVec 32) × FlatMem)
  | .hwaddrRead _ addr len | .swaddrRead _ addr len => do
      let v ← m.read addr len.bytes
      return (some v, m)
  | .hwaddrWrite _ addr len data | .swaddrWrite _ addr len data => do
      let m ← m.write addr len.bytes data
      return (none, m)

/-! ## Addresses -/

theorem and_burstMask_toNat (a : Addr) : (a &&& BURST_MASK).toNat = a.toNat % 8 := by
  have h7 : BURST_MASK.toNat = 2 ^ 3 - 1 := by decide
  rw [BitVec.toNat_and, h7, Nat.and_two_pow_sub_one_eq_mod]

/-- Clearing the burst bits rounds the address down to a multiple of 8. -/
theorem andNot_burstMask_toNat (a : Addr) :
    (a &&& ~~~BURST_MASK).toNat = a.toNat - a.toNat % 8 := by
  have hdisj : (a &&& BURST_MASK) &&& (a &&& ~~~BURST_MASK) = 0 := by
    ext i hi
    simp only [BitVec.getElem_and, BitVec.getElem_not]
    cases BURST_MASK[i] <;> simp
  have hsum : (a &&& BURST_MASK) + (a &&& ~~~BURST_MASK) = a := by
    rw [BitVec.add_eq_or_of_and_eq_zero _ _ hdisj]
    ext i hi
    simp only [BitVec.getElem_or, BitVec.getElem_and, BitVec.getElem_not]
    cases BURST_MASK[i] <;> simp
  have hle : (a &&& ~~~BURST_MASK).toNat ≤ a.toNat := by
    rw [BitVec.toNat_and]
    exact Nat.and_le_left
  have hmod := and_burstMask_toNat a
  have := congrArg BitVec.toNat hsum
  rw [BitVec.toNat_add, hmod] at this
  have hlt := a.isLt
  have hmodlt : a.toNat % 8 < 8 := Nat.mod_lt _ (by decide)
  have hb := (a &&& ~~~BURST_MASK).isLt
  omega

/-- The four bit-fields lie in their ranges. -/
theorem DramAddr.ofAddr_bounds (a : Addr) :
    (ofAddr a).col < NR_COL ∧ (ofAddr a).row < NR_ROW ∧
      (ofAddr a).bank < NR_BANK ∧ (ofAddr a).rank < NR_RANK :=
  ⟨(a.extractLsb' 0 10).isLt, (a.extractLsb' 10 10).isLt, (a.extractLsb' 20 3).isLt,
    (a.extractLsb' 23 4).isLt⟩

/-- The cell `dram[rank][bank][row][col]` of an address is the byte of `hw_mem`
    at that address. -/
theorem dramRow_ofAddr {a : Addr} (h : a.toNat < HW_MEM_SIZE) :
    dramRow (DramAddr.ofAddr a).rank (DramAddr.ofAddr a).bank (DramAddr.ofAddr a).row
      + (DramAddr.ofAddr a).col = a.toNat := by
  simp only [dramRow, DramAddr.ofAddr, BitVec.extractLsb'_toNat, Nat.shiftRight_eq_div_pow,
    HW_MEM_SIZE, NR_COL, NR_ROW, NR_BANK] at *
  omega

/-- Distinct rows do not overlap in `hw_mem`. -/
theorem dramRow_disjoint (rank rank' : Nat) {bank row bank' row' : Nat}
    (hb : bank < NR_BANK) (hb' : bank' < NR_BANK) (hr : row < NR_ROW) (hr' : row' < NR_ROW)
    (hne : ¬ (rank = rank' ∧ bank = bank' ∧ row = row')) :
    dramRow rank bank row + NR_COL ≤ dramRow rank' bank' row' ∨
      dramRow rank' bank' row' + NR_COL ≤ dramRow rank bank row := by
  simp only [dramRow, NR_BANK, NR_ROW, NR_COL] at *
  omega

/-! ## Row buffers -/

/-- The row buffer `rb` holds a copy of row `row` of its bank. -/
def RB.Holds (rb : RB) (dram : Nat → Byte) (rank bank row : Nat) : Prop :=
  rb.row_idx = BitVec.ofNat 32 row ∧
    ∀ i, i < NR_COL → rb.buf i = dram (dramRow rank bank row + i)

/-- Every valid row buffer holds the row it names. -/
def Ddr3.Coherent (s : Ddr3) : Prop :=
  ∀ rank bank, rank < NR_RANK → bank < NR_BANK → (s.rowbufs rank bank).valid = true →
    ∃ row, row < NR_ROW ∧ (s.rowbufs rank bank).Holds s.dram rank bank row

@[simp] theorem Ddr3.setRb_dram (s : Ddr3) (rank bank : Nat) (rb : RB) :
    (s.setRb rank bank rb).dram = s.dram := rfl

@[simp] theorem Ddr3.setRb_same (s : Ddr3) (rank bank : Nat) (rb : RB) :
    (s.setRb rank bank rb).rowbufs rank bank = rb := if_pos ⟨rfl, rfl⟩

theorem Ddr3.setRb_other {s : Ddr3} {rank bank i j : Nat} {rb : RB}
    (h : ¬ (i = rank ∧ j = bank)) : (s.setRb rank bank rb).rowbufs i j = s.rowbufs i j :=
  if_neg h

/-- Just after `init_ddr3` no row buffer is valid. -/
theorem Ddr3.coherent_init (s : Ddr3) : (initDdr3 s).Coherent := by
  intro rank bank hrank hbank hvalid
  simp [initDdr3, hrank, hbank] at hvalid

/-- Opening a row leaves memory alone, keeps coherence, and ends with the row in
    its buffer. -/
theorem openRow_spec {s : Ddr3} (hs : s.Coherent) {t : DramAddr} (hrow : t.row < NR_ROW)
    (hbank : t.bank < NR_BANK) (hrank : t.rank < NR_RANK) :
    (openRow s t).Coherent ∧ (openRow s t).dram = s.dram ∧
      ((openRow s t).rowbufs t.rank t.bank).valid = true ∧
      ((openRow s t).rowbufs t.rank t.bank).Holds s.dram t.rank t.bank t.row := by
  unfold openRow
  simp only
  split
  · next hhit =>
      -- the buffered row index is below 1024, so it names the row itself
      simp only [Bool.and_eq_true, beq_iff_eq] at hhit
      obtain ⟨row, hrow', hidx, hbuf⟩ := hs t.rank t.bank hrank hbank hhit.1
      have heq : row = t.row := by
        have h := congrArg BitVec.toNat (hidx.symm.trans hhit.2)
        simp only [BitVec.toNat_ofNat, NR_ROW] at h hrow hrow'
        omega
      exact ⟨hs, rfl, hhit.1, hhit.2, heq ▸ hbuf⟩
  · -- a miss copies the row
    have hholds : ∀ rb : RB, RB.Holds
        { buf := patch rb.buf 0 NR_COL (fun i => s.dram (dramRow t.rank t.bank t.row + i))
          row_idx := BitVec.ofNat 32 t.row, valid := true } s.dram t.rank t.bank t.row :=
      fun rb => ⟨rfl, fun i hi => by
        dsimp only
        rw [patch_inside (by omega) (by omega), Nat.sub_zero]⟩
    refine ⟨?_, rfl, by simp, by simpa using hholds _⟩
    intro rank bank hr hb hvalid
    by_cases hsame : rank = t.rank ∧ bank = t.bank
    · obtain ⟨rfl, rfl⟩ := hsame
      exact ⟨t.row, hrow, by simpa using hholds _⟩
    · rw [Ddr3.setRb_other hsame] at hvalid ⊢
      exact hs rank bank hr hb hvalid

/-! ## Bursts -/

theorem memcpyWithMaskFrom_apply (src mask : Nat → Byte) (off n : Nat) :
    ∀ (dest : Nat → Byte) (i x : Nat),
      memcpyWithMaskFrom dest off src mask i n x =
        if off + i ≤ x ∧ x < off + i + n ∧ mask (x - off) ≠ 0 then src (x - off)
        else dest x := by
  induction n with
  | zero => intro dest i x; rw [if_neg (by omega)]; rfl
  | succ n ih =>
      intro dest i x
      simp only [memcpyWithMaskFrom]
      rw [ih]
      by_cases hx : x = off + i
      · -- the byte handled by this iteration
        subst hx
        rw [if_neg (by omega), Nat.add_sub_cancel_left]
        by_cases hm : mask i = 0
        · rw [if_neg (by simp [hm]), if_neg (by simp [hm])]
        · rw [if_pos (by simpa using hm), if_pos ⟨by omega, by omega, hm⟩,
            patch_inside (by omega) (by omega)]
      · have hdest : (if mask i ≠ 0 then patch dest (off + i) 1 (fun _ => src i) else dest) x
            = dest x := by
          split
          · exact patch_outside (by omega)
          · rfl
        rw [hdest]
        congr 1
        simp only [eq_iff_iff]
        apply Iff.intro
        · exact fun ⟨h1, h2, h3⟩ => ⟨by omega, by omega, h3⟩
        · exact fun ⟨h1, h2, h3⟩ => ⟨by omega, by omega, h3⟩

/-- A masked copy replaces exactly the bytes whose mask is set. -/
theorem memcpyWithMask_apply (dest src mask : Nat → Byte) (off n x : Nat) :
    memcpyWithMask dest off src n mask x =
      if off ≤ x ∧ x < off + n ∧ mask (x - off) ≠ 0 then src (x - off) else dest x :=
  memcpyWithMaskFrom_apply src mask off n dest 0 x

/-- The bytes of the burst at `base` whose mask is set, replaced. -/
def burstStore (m : Nat → Byte) (base : Nat) (data mask : Nat → Byte) : Nat → Byte :=
  fun x => if base ≤ x ∧ x < base + BURST_LEN ∧ mask (x - base) ≠ 0 then data (x - base) else m x

/-- The aligned address of a burst is a column of its row, eight columns from
    the end at most. -/
theorem burst_addr {a : Addr} (h : a.toNat < HW_MEM_SIZE) :
    let t := DramAddr.ofAddr (a &&& ~~~BURST_MASK)
    dramRow t.rank t.bank t.row + t.col = a.toNat - a.toNat % 8 ∧
      t.col + BURST_LEN ≤ NR_COL := by
  have halign := andNot_burstMask_toNat a
  have hlt : (a &&& ~~~BURST_MASK).toNat < HW_MEM_SIZE := by omega
  have hrow := dramRow_ofAddr hlt
  have hcol := (DramAddr.ofAddr_bounds (a &&& ~~~BURST_MASK)).1
  refine ⟨by rw [hrow, halign], ?_⟩
  simp only [dramRow, NR_BANK, NR_ROW, NR_COL, BURST_LEN] at *
  omega

theorem Ddr3.ddr3Read_spec {s : Ddr3} (hs : s.Coherent) {a : Addr}
    (h : a.toNat < HW_MEM_SIZE) :
    ∃ burst s', s.ddr3Read a = .ok (burst, s') ∧ s'.Coherent ∧ s'.dram = s.dram ∧
      ∀ i, i < BURST_LEN → burst i = s.dram (a.toNat - a.toNat % 8 + i) := by
  obtain ⟨hcol, hrow, hbank, hrank⟩ := DramAddr.ofAddr_bounds (a &&& ~~~BURST_MASK)
  obtain ⟨haddr, hfit⟩ := burst_addr h
  obtain ⟨hcoh, hdram, -, -, hbuf⟩ := openRow_spec hs hrow hbank hrank
  refine ⟨_, _, by rw [ddr3Read, decide_eq_true h]; rfl, hcoh, hdram, ?_⟩
  intro i hi
  rw [hbuf _ (by omega), ← haddr, Nat.add_assoc]

theorem Ddr3.ddr3Write_spec {s : Ddr3} (hs : s.Coherent) {a : Addr}
    (h : a.toNat < HW_MEM_SIZE) (data mask : Nat → Byte) :
    ∃ s', s.ddr3Write a data mask = .ok s' ∧ s'.Coherent ∧
      s'.dram = burstStore s.dram (a.toNat - a.toNat % 8) data mask := by
  obtain ⟨hcol, hrow, hbank, hrank⟩ := DramAddr.ofAddr_bounds (a &&& ~~~BURST_MASK)
  obtain ⟨haddr, hfit⟩ := burst_addr h
  obtain ⟨hcoh, hdram, hvalid, hidx, hbuf⟩ := openRow_spec hs hrow hbank hrank
  refine ⟨_, by rw [ddr3Write, decide_eq_true h]; rfl, ?_, ?_⟩
  all_goals
    generalize DramAddr.ofAddr (a &&& ~~~BURST_MASK) = t at *
    generalize openRow s t = s₁ at *
  · intro rank bank hr hb hv
    by_cases hsame : rank = t.rank ∧ bank = t.bank
    · -- the written row: buffer and memory got the same bytes
      obtain ⟨rfl, rfl⟩ := hsame
      refine ⟨t.row, hrow, by simpa using hidx, ?_⟩
      intro i hi
      simp only [setRb_same]
      rw [patch_inside (by omega) (by omega), Nat.add_sub_cancel_left]
    · -- any other row is not touched by the write back
      simp only [Ddr3.setRb_other hsame] at hv ⊢
      obtain ⟨row, hrow', hidx', hbuf'⟩ := hcoh rank bank hr hb hv
      refine ⟨row, hrow', hidx', ?_⟩
      intro i hi
      have hdisj := dramRow_disjoint rank t.rank hb hbank hrow' hrow
        (fun hc => hsame ⟨hc.1, hc.2.1⟩)
      simp only [setRb_dram]
      rw [patch_outside (by omega), hbuf' i hi]
  · funext x
    simp only [setRb_dram, burstStore, ← haddr]
    by_cases hx : dramRow t.rank t.bank t.row ≤ x ∧ x < dramRow t.rank t.bank t.row + NR_COL
    · rw [patch_inside hx.1 hx.2, memcpyWithMask_apply, hbuf _ (by omega),
        Nat.add_sub_cancel' hx.1, Nat.sub_sub]
      congr 1
      simp only [eq_iff_iff]
      apply Iff.intro
      · exact fun ⟨h1, h2, h3⟩ => ⟨by omega, by omega, h3⟩
      · exact fun ⟨h1, h2, h3⟩ => ⟨by omega, by omega, h3⟩
    · rw [patch_outside (by omega), if_neg (by omega), hdram]

/-! ## Accesses -/

/-- The final mask of `hwaddr_read` keeps the `len` low bytes. -/
theorem and_lenMask_toNat (v : BitVec 32) (len : Width) :
    (v &&& (0xffffffff#32 >>> ((4 - len.bytes) <<< 3))).toNat = v.toNat % 256 ^ len.bytes := by
  have hmask : (0xffffffff#32 >>> ((4 - len.bytes) <<< 3)).toNat = 2 ^ (8 * len.bytes) - 1 := by
    cases len <;> decide
  rw [BitVec.toNat_and, hmask, Nat.and_two_pow_sub_one_eq_mod, Nat.pow_mul]

/-- A burst-relative window of four stack bytes whose first `len` bytes are those
    of memory at `a` reads, after the mask, as the flat value. -/
theorem masked_unalignRead4 {m p : Nat → Byte} {a : Nat} {len : Width}
    (h : ∀ i, i < len.bytes → p i = m (a + i)) :
    Ddr3.unalignRead4 p &&& (0xffffffff#32 >>> ((4 - len.bytes) <<< 3))
      = BitVec.ofNat 32 (load m a len.bytes) := by
  apply BitVec.eq_of_toNat_eq
  have hle := len.bytes_le
  have hload : load m a len.bytes < 2 ^ 32 :=
    Nat.lt_of_lt_of_le (load_lt ..) (Nat.pow_le_pow_right (by decide) hle)
  have h4 : leNat p 4 < 2 ^ 32 := leNat_lt p 4
  rw [and_lenMask_toNat, Ddr3.unalignRead4, BitVec.toNat_ofNat, BitVec.toNat_ofNat,
    Nat.mod_eq_of_lt h4, Nat.mod_eq_of_lt hload, leNat_mod _ hle]
  exact leNat_congr h

-- The second burst of a crossing access starts where the first one ends.
theorem nextBurst_toNat {a : Addr} (h : a.toNat < HW_MEM_SIZE) :
    (a + BitVec.ofNat 32 BURST_LEN).toNat = a.toNat + BURST_LEN := by
  rw [BitVec.toNat_add, BitVec.toNat_ofNat]
  simp only [HW_MEM_SIZE, BURST_LEN] at *
  omega

theorem Ddr3.hwaddrRead_spec {s : Ddr3} (hs : s.Coherent) (stack : Nat → Byte) {a : Addr}
    {len : Width} (h : FlatMem.InRange a len.bytes) :
    ∃ s', s.hwaddrRead stack a len.bytes =
        .ok (BitVec.ofNat 32 (load s.dram a.toNat len.bytes), s') ∧
      s'.Coherent ∧ s'.dram = s.dram := by
  have hpos := len.bytes_pos
  have hle := len.bytes_le
  have hoff := and_burstMask_toNat a
  simp only [FlatMem.InRange] at h
  have ha : a.toNat < HW_MEM_SIZE := by omega
  obtain ⟨b₁, s₁, hr₁, hc₁, hd₁, hb₁⟩ := ddr3Read_spec hs ha
  simp only [BURST_LEN] at hb₁
  by_cases hcross : (a &&& BURST_MASK).toNat + len.bytes > BURST_LEN
  · -- two bursts: the second is still inside the memory
    have hnext := nextBurst_toNat ha
    have ha₂ : (a + BitVec.ofNat 32 BURST_LEN).toNat < HW_MEM_SIZE := by
      simp only [HW_MEM_SIZE, BURST_LEN] at *
      omega
    obtain ⟨b₂, s₂, hr₂, hc₂, hd₂, hb₂⟩ := ddr3Read_spec hc₁ ha₂
    rw [hnext] at hb₂
    simp only [BURST_LEN] at hb₂
    refine ⟨s₂, ?_, hc₂, hd₂.trans hd₁⟩
    simp only [hwaddrRead, dramRead, hr₁, ok_bind, if_pos hcross, hr₂]
    refine congrArg (fun v => Except.ok (v, s₂)) (masked_unalignRead4 ?_)
    intro i hi
    rw [hoff]
    by_cases hlow : a.toNat % 8 + i < 8
    · rw [patch_outside (by simp only [BURST_LEN]; omega),
        patch_inside (by omega) (by simp only [BURST_LEN]; omega), hb₁ _ (by omega)]
      congr 1
      omega
    · rw [patch_inside (by simp only [BURST_LEN]; omega) (by simp only [BURST_LEN]; omega),
        hb₂ _ (by simp only [BURST_LEN]; omega), hd₁]
      congr 1
      simp only [BURST_LEN]
      omega
  · refine ⟨s₁, ?_, hc₁, hd₁⟩
    simp only [hwaddrRead, dramRead, hr₁, ok_bind, if_neg hcross]
    refine congrArg (fun v => Except.ok (v, s₁)) (masked_unalignRead4 ?_)
    intro i hi
    simp only [BURST_LEN] at hcross
    rw [hoff] at hcross ⊢
    rw [patch_inside (by omega) (by simp only [BURST_LEN]; omega), hb₁ _ (by omega)]
    congr 1
    omega

section Window

-- `data` and `mask` are the windows at `k` of the stack buffers of `dram_write`.
variable {m stack data mask : Nat → Byte} {base off len k v x : Nat}
  (hdata : ∀ i, data i = patch stack off 4 (leByte v) (k + i))
  (hmask : ∀ i, mask i = patch (fun _ => 0) off len (fun _ => 1) (k + i))

include hdata hmask in
theorem burstStore_hit (hlen : len ≤ 4) (hx : base ≤ x ∧ x < base + BURST_LEN)
    (hin : off ≤ k + (x - base) ∧ k + (x - base) < off + len) :
    burstStore m base data mask x = leByte v (k + (x - base) - off) := by
  have h1 : (1 : Byte) ≠ 0 := by decide
  rw [burstStore, hmask, hdata, patch_inside hin.1 hin.2, patch_inside hin.1 (by omega)]
  exact if_pos ⟨hx.1, hx.2, h1⟩

include hmask in
theorem burstStore_miss (h : ¬ (base ≤ x ∧ x < base + BURST_LEN) ∨
      k + (x - base) < off ∨ off + len ≤ k + (x - base)) :
    burstStore m base data mask x = m x := by
  rw [burstStore]
  refine if_neg (fun hc => ?_)
  rcases h with hout | hunmasked
  · exact hout ⟨hc.1, hc.2.1⟩
  · rw [hmask, patch_outside hunmasked] at hc
    exact hc.2.2 rfl

end Window

theorem Ddr3.hwaddrWrite_spec {s : Ddr3} (hs : s.Coherent) (stack : Nat → Byte) {a : Addr}
    {len : Width} (data : BitVec 32) (h : FlatMem.InRange a len.bytes) :
    ∃ s', s.hwaddrWrite stack a len.bytes data = .ok s' ∧ s'.Coherent ∧
      s'.dram = store s.dram a.toNat len.bytes data.toNat := by
  have hpos := len.bytes_pos
  have hle := len.bytes_le
  have hoff := and_burstMask_toNat a
  have hB : BURST_LEN = 8 := rfl
  simp only [FlatMem.InRange] at h
  have ha : a.toNat < HW_MEM_SIZE := by omega
  simp only [hwaddrWrite, dramWrite, hoff]
  obtain ⟨s₁, hw₁, hc₁, hd₁⟩ := ddr3Write_spec hs ha
    (patch stack (a.toNat % 8) 4 (leByte data.toNat))
    (patch (fun _ => 0) (a.toNat % 8) len.bytes (fun _ => 1))
  -- the first burst is the window at 0
  have hdata₁ : ∀ i, patch stack (a.toNat % 8) 4 (leByte data.toNat) i
      = patch stack (a.toNat % 8) 4 (leByte data.toNat) (0 + i) :=
    fun i => by rw [Nat.zero_add]
  have hmask₁ : ∀ i, patch (fun _ => (0 : Byte)) (a.toNat % 8) len.bytes (fun _ => 1) i
      = patch (fun _ => 0) (a.toNat % 8) len.bytes (fun _ => 1) (0 + i) :=
    fun i => by rw [Nat.zero_add]
  by_cases hcross : a.toNat % 8 + len.bytes > BURST_LEN
  · -- two bursts: the low bytes end the first, the high bytes start the second
    have hnext := nextBurst_toNat ha
    have ha₂ : (a + BitVec.ofNat 32 BURST_LEN).toNat < HW_MEM_SIZE := by
      rw [hnext]
      simp only [HW_MEM_SIZE] at *
      omega
    obtain ⟨s₂, hw₂, hc₂, hd₂⟩ := ddr3Write_spec hc₁ ha₂
      (fun i => patch stack (a.toNat % 8) 4 (leByte data.toNat) (BURST_LEN + i))
      (fun i => patch (fun _ => 0) (a.toNat % 8) len.bytes (fun _ => 1) (BURST_LEN + i))
    refine ⟨s₂, by simp only [hw₁, ok_bind, if_pos hcross, hw₂], hc₂, ?_⟩
    rw [hd₂, hd₁, hnext]
    funext x
    by_cases hx : a.toNat ≤ x ∧ x < a.toNat + len.bytes
    · rw [store, patch_inside hx.1 hx.2]
      by_cases hlow : x < a.toNat - a.toNat % 8 + BURST_LEN
      · rw [burstStore_miss (fun _ => rfl) (by omega),
          burstStore_hit hdata₁ hmask₁ hle (by omega) (by omega)]
        congr 1
        omega
      · rw [burstStore_hit (fun _ => rfl) (fun _ => rfl) hle (by omega) (by omega)]
        congr 1
        omega
    · rw [store_outside (by omega), burstStore_miss (fun _ => rfl) (by omega),
        burstStore_miss hmask₁ (by omega)]
  · refine ⟨s₁, by simp only [hw₁, ok_bind, if_neg hcross]; rfl, hc₁, ?_⟩
    rw [hd₁]
    funext x
    by_cases hx : a.toNat ≤ x ∧ x < a.toNat + len.bytes
    · rw [store, patch_inside hx.1 hx.2, burstStore_hit hdata₁ hmask₁ hle (by omega) (by omega)]
      congr 1
      omega
    · rw [store_outside (by omega), burstStore_miss hmask₁ (by omega)]

theorem Ddr3.ddr3Read_outOfRange {s : Ddr3} {a : Addr} (h : ¬ a.toNat < HW_MEM_SIZE) :
    s.ddr3Read a = .error .assertion := by
  rw [ddr3Read, decide_eq_false h]
  rfl

theorem Ddr3.ddr3Write_outOfRange {s : Ddr3} {a : Addr} {data mask : Nat → Byte}
    (h : ¬ a.toNat < HW_MEM_SIZE) : s.ddr3Write a data mask = .error .assertion := by
  rw [ddr3Write, decide_eq_false h]
  rfl

/-- An access that starts inside the memory and leaves it crosses into a burst
    outside. -/
theorem nextBurst_outOfRange {a : Addr} {len : Width} (ha : a.toNat < HW_MEM_SIZE)
    (h : ¬ FlatMem.InRange a len.bytes) :
    a.toNat % 8 + len.bytes > BURST_LEN ∧
      ¬ (a + BitVec.ofNat 32 BURST_LEN).toNat < HW_MEM_SIZE := by
  have hle := len.bytes_le
  rw [nextBurst_toNat ha]
  simp only [FlatMem.InRange, HW_MEM_SIZE, BURST_LEN] at *
  omega

theorem Ddr3.hwaddrRead_outOfRange {s : Ddr3} (hs : s.Coherent) (stack : Nat → Byte)
    {a : Addr} {len : Width} (h : ¬ FlatMem.InRange a len.bytes) :
    s.hwaddrRead stack a len.bytes = .error .assertion := by
  simp only [hwaddrRead, dramRead, and_burstMask_toNat]
  by_cases ha : a.toNat < HW_MEM_SIZE
  · obtain ⟨b₁, s₁, hr₁, -, -, -⟩ := ddr3Read_spec hs ha
    obtain ⟨hcross, hout⟩ := nextBurst_outOfRange ha h
    simp only [hr₁, ok_bind, if_pos hcross, ddr3Read_outOfRange hout, error_bind]
  · simp only [ddr3Read_outOfRange ha, error_bind]

theorem Ddr3.hwaddrWrite_outOfRange {s : Ddr3} (hs : s.Coherent) (stack : Nat → Byte)
    {a : Addr} {len : Width} (data : BitVec 32) (h : ¬ FlatMem.InRange a len.bytes) :
    s.hwaddrWrite stack a len.bytes data = .error .assertion := by
  simp only [hwaddrWrite, dramWrite, and_burstMask_toNat]
  by_cases ha : a.toNat < HW_MEM_SIZE
  · obtain ⟨s₁, hw₁, -, -⟩ := ddr3Write_spec hs ha
      (patch stack (a.toNat % 8) 4 (leByte data.toNat))
      (patch (fun _ => 0) (a.toNat % 8) len.bytes (fun _ => 1))
    obtain ⟨hcross, hout⟩ := nextBurst_outOfRange ha h
    simp only [hw₁, ok_bind, if_pos hcross, ddr3Write_outOfRange hout]
  · simp only [ddr3Write_outOfRange ha, error_bind]

/-! ## Runs -/

-- The length check of the `DEBUG` build accepts every operand width.
theorem swaddr_len_ok (len : Width) :
    cAssert (len.bytes == 1 || len.bytes == 2 || len.bytes == 4) = .ok () := by
  cases len <;> rfl

/-- A coherent DDR3 state whose memory is `m`. -/
def Ddr3.Implements (s : Ddr3) (m : FlatMem) : Prop := s.Coherent ∧ s.dram = m

theorem Ddr3.read_agree {s : Ddr3} {m : FlatMem} (h : s.Implements m) (stack : Nat → Byte)
    (addr : Addr) (len : Width) :
    Agree Implements
      (do let (v, s) ← s.hwaddrRead stack addr len.bytes; return (some v, s))
      (do let v ← m.read addr len.bytes; return (some v, m)) := by
  obtain ⟨hs, rfl⟩ := h
  by_cases hr : FlatMem.InRange addr len.bytes
  · obtain ⟨s', hread, hc, hd⟩ := hwaddrRead_spec hs stack hr
    simp only [hread, FlatMem.read, decide_eq_true hr, cAssert_true, ok_bind]
    exact .ok ⟨hc, hd⟩
  · simp only [hwaddrRead_outOfRange hs stack hr, FlatMem.read, decide_eq_false hr,
      cAssert_false, error_bind]
    exact .error _

theorem Ddr3.write_agree {s : Ddr3} {m : FlatMem} (h : s.Implements m) (stack : Nat → Byte)
    (addr : Addr) (len : Width) (data : BitVec 32) :
    Agree Implements
      (do let s ← s.hwaddrWrite stack addr len.bytes data; return ((none : Option (BitVec 32)), s))
      (do let m ← m.write addr len.bytes data; return (none, m)) := by
  obtain ⟨hs, rfl⟩ := h
  by_cases hr : FlatMem.InRange addr len.bytes
  · obtain ⟨s', hwrite, hc, hd⟩ := hwaddrWrite_spec hs stack data hr
    simp only [hwrite, FlatMem.write, decide_eq_true hr, cAssert_true, ok_bind]
    exact .ok ⟨hc, hd⟩
  · simp only [hwaddrWrite_outOfRange hs stack data hr, FlatMem.write, decide_eq_false hr,
      cAssert_false, error_bind]
    exact .error _

/-- One access function call on the DDR3 model is the call on flat memory. -/
theorem Ddr3.step_agree (s : Ddr3) (m : FlatMem) (op : MemOp) (h : s.Implements m) :
    Agree Implements (s.step op) (m.step op) := by
  cases op with
  | hwaddrRead stack addr len => exact read_agree h stack addr len
  | hwaddrWrite stack addr len data => exact write_agree h stack addr len data
  | swaddrRead stack addr len =>
      simp only [step, swaddrRead, swaddr_len_ok, ok_bind, lnaddrRead]
      exact read_agree h stack addr len
  | swaddrWrite stack addr len data =>
      simp only [step, swaddrWrite, swaddr_len_ok, ok_bind, lnaddrWrite]
      exact write_agree h stack addr len data

/-- From `init_ddr3` on, every run of access function calls answers as flat
    memory does, fails exactly when flat memory is left, and ends with the flat
    memory in `dram`. -/
theorem Ddr3.run_refines_flat (s : Ddr3) (ops : List MemOp) :
    Agree (fun s' m' => Ddr3.dram s' = m') (run Ddr3.step (initDdr3 s) ops)
      (run FlatMem.step s.dram ops) := by
  have hstep : ∀ s m op, Implements s m → True → Agree Implements (Ddr3.step s op) (FlatMem.step m op) :=
    fun s m op hR _ => step_agree s m op hR
  have h := run_agree hstep ops (initDdr3 s) s.dram
    ⟨coherent_init s, rfl⟩ (fun _ _ => trivial)
  generalize run Ddr3.step (initDdr3 s) ops = x, run FlatMem.step s.dram ops = y at h
  cases h with
  | error e => exact .error e
  | ok hR => exact .ok hR.2

end Nemu
