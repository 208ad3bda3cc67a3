/-
  Nemu.Device.DmaCoherence

  Memory has two writers: the DDR3 model, whose row buffers follow what it writes,
  and the DMA reads of the disk, which store to `hw_mem` past them.  Over runs of
  memory accesses and port accesses the row buffers stay right exactly as long as
  no DMA read changes a byte of a row that is open.

  `touch` is the state an access leaves the row buffers in; `dmaRead_ok` says what
  a DMA read does, and `coherent_stored_iff` when that keeps a row buffer right.
-/

import Nemu.Device.PortIo
import Nemu.Memory.DramRefinement

namespace Nemu

open ByteSeq Outcome DetSystem

/-! ## Runs of memory and port accesses -/

/-- An access by the CPU to the memory or to a port, with the uninitialised stack buffer of
    the memory reads it makes. -/
inductive BusOp where
  | hwaddrRead (stack : Nat → Byte) (addr : Addr) (len : Width)
  | hwaddrWrite (stack : Nat → Byte) (addr : Addr) (len : Width) (data : BitVec 32)
  | pioRead (stack : Nat → Byte) (addr : BitVec 16) (len : Nat)
  | pioWrite (stack : Nat → Byte) (addr : BitVec 16) (len : Nat) (data : BitVec 32)

namespace Devices

/-- One access; a read answers with its value. -/
def busStep (s : Devices) : BusOp → Except Abort (Option (BitVec 32) × Devices)
  | .hwaddrRead stack addr len => do
      let (v, ddr3) ← s.ddr3.hwaddrRead stack addr len.bytes
      return (some v, { s with ddr3 := ddr3 })
  | .hwaddrWrite stack addr len data => do
      let ddr3 ← s.ddr3.hwaddrWrite stack addr len.bytes data
      return (none, { s with ddr3 := ddr3 })
  | .pioRead stack addr len => do
      let (v, s) ← s.pioRead stack addr len
      return (some v, s)
  | .pioWrite stack addr len data => do
      let s ← s.pioWrite stack addr len data
      return (none, s)

/-- The memory answers the access as `hw_mem` would: a read returns the bytes there, a write
    replaces them and no others. -/
def Faithful (s : Devices) : BusOp → Prop
  | .hwaddrRead stack addr len =>
      (s.ddr3.hwaddrRead stack addr len.bytes).map Prod.fst = FlatMem.read s.ddr3.dram addr len.bytes
  | .hwaddrWrite stack addr len data =>
      (s.ddr3.hwaddrWrite stack addr len.bytes data).map Ddr3.dram
        = FlatMem.write s.ddr3.dram addr len.bytes data
  | _ => True

/-- In every state of the run each valid row buffer equals the row it names, and the memory
    answers as `hw_mem` would. -/
def StaysCoherent : Devices → List BusOp → Prop
  | s, [] => s.ddr3.Coherent
  | s, op :: ops => s.ddr3.Coherent ∧ s.Faithful op ∧
      ∀ o s', s.busStep op = .ok (o, s') → StaysCoherent s' ops

/-! ## When a DMA read stays clear of the open rows -/

end Devices

namespace Ddr3

/-- The row buffers as an access of `len` bytes leaves them. -/
def touch (s : Ddr3) (addr : Addr) (len : Nat) : Ddr3 :=
  let s := openRow s (DramAddr.ofAddr (addr &&& ~~~BURST_MASK))
  if (addr &&& BURST_MASK).toNat + len > BURST_LEN then
    openRow s (DramAddr.ofAddr ((addr + BitVec.ofNat 32 BURST_LEN) &&& ~~~BURST_MASK))
  else s

/-- The byte at `a` of `hw_mem` lies in a row that is open in a valid row buffer. -/
def IsOpen (s : Ddr3) (a : Nat) : Prop :=
  ∃ rank bank, rank < NR_RANK ∧ bank < NR_BANK ∧ (s.rowbufs rank bank).valid = true ∧
    dramRow rank bank (s.rowbufs rank bank).row_idx.toNat ≤ a ∧
      a < dramRow rank bank (s.rowbufs rank bank).row_idx.toNat + NR_COL

end Ddr3

namespace Devices

-- the registers once `pio_write` has copied the data
def portWritten (s : Devices) (addr : BitVec 16) (len : Nat) (data : BitVec 32) : Devices :=
  { s with pio_space := patch s.pio_space addr.toNat len (leByte data.toNat) }

-- the address of the Physical Region Descriptor Table
def prdtAddr (s : Devices) : Addr := BitVec.ofNat 32 (load s.pio_space (BMR_PORT.toNat + 4) 4)

/-- No byte that the DMA read of the table at `prdtAddr` changes lies in an open row; reading
    the table opens its rows. -/
def DmaClear (s : Devices) : Prop :=
  let prdt_addr := s.prdtAddr
  let addr := BitVec.ofNat 32 (load s.ddr3.dram prdt_addr.toNat 4)
  let hi_entry := BitVec.ofNat 32 (load s.ddr3.dram (prdt_addr + 4).toNat 4)
  let fp := s.disk_fp.fseek (s.portSector <<< 9)
  ∀ i < fp.avail (hi_entry.setWidth 16).toNat,
    ((s.ddr3.touch prdt_addr 4).touch (prdt_addr + 4) 4).IsOpen (addr.toNat + i) →
      fp.bytes (fp.pos + i) = s.ddr3.dram (addr.toNat + i)

-- a write to the port `addr` starts a DMA read
def StartsDma (s : Devices) (addr : BitVec 16) : Prop :=
  addr = BMR_PORT ∧ s.bmr 0 &&& 0x1 ≠ 0 ∧ s.bmr 0 &&& 0x8 ≠ 0

/-- If the access starts a DMA read, that stays clear of the open rows. -/
def Clear (s : Devices) : BusOp → Prop
  | .pioWrite _ addr len data =>
      (s.portWritten addr len data).StartsDma addr → (s.portWritten addr len data).DmaClear
  | _ => True

/-- Every access of the run that completes stays clear. -/
def AllClear : Devices → List BusOp → Prop
  | _, [] => True
  | s, op :: ops => ∀ o s', s.busStep op = .ok (o, s') → s.Clear op ∧ AllClear s' ops

end Devices

/-! ## Row buffers under a store past them -/

namespace Ddr3

variable {s s' : Ddr3} {stack : Nat → Byte} {addr : Addr} {len : Width} {v : BitVec 32}

theorem row_eq {rb : RB} {dram : Nat → Byte} {rank bank row : Nat}
    (h : rb.Holds dram rank bank row) (hrow : row < NR_ROW) : rb.row_idx.toNat = row := by
  rw [h.1, BitVec.toNat_ofNat]
  exact Nat.mod_eq_of_lt (Nat.lt_trans hrow (by decide))

/-- After a store past the row buffers they are right iff the store changed no byte of an
    open row. -/
theorem coherent_stored_iff (hs : s.Coherent) (a k : Nat) (src : Nat → Byte) :
    Ddr3.Coherent { s with dram := patch s.dram a k src } ↔
      ∀ i < k, s.IsOpen (a + i) → src i = s.dram (a + i) := by
  apply Iff.intro
  · rintro hnew i hi ⟨rank, bank, hrank, hbank, hvalid, hlow, hhigh⟩
    obtain ⟨row, hrow, hholds⟩ := hs rank bank hrank hbank hvalid
    obtain ⟨row', hrow', hholds'⟩ := hnew rank bank hrank hbank hvalid
    have hidx := row_eq hholds hrow
    obtain rfl : row = row' := hidx.symm.trans (row_eq hholds' hrow')
    rw [hidx] at hlow hhigh
    -- the buffer holds the byte as it was before and as it is now
    have hold := hholds.2 (a + i - dramRow rank bank row) (by omega)
    have hcur := hholds'.2 (a + i - dramRow rank bank row) (by omega)
    rw [Nat.add_sub_cancel' hlow] at hold hcur
    rw [← hold]
    exact (patch_add hi).symm.trans hcur.symm
  · intro hclear rank bank hrank hbank hvalid
    obtain ⟨row, hrow, hidx, hbuf⟩ := hs rank bank hrank hbank hvalid
    refine ⟨row, hrow, hidx, ?_⟩
    intro j hj
    rw [hbuf j hj]
    by_cases hin : a ≤ dramRow rank bank row + j ∧ dramRow rank bank row + j < a + k
    · have hopen : s.IsOpen (a + (dramRow rank bank row + j - a)) := by
        refine ⟨rank, bank, hrank, hbank, hvalid, ?_⟩
        rw [row_eq ⟨hidx, hbuf⟩ hrow]
        omega
      have hsame := hclear _ (by omega) hopen
      rw [Nat.add_sub_cancel' hin.1] at hsame
      show _ = patch s.dram a k src _
      rw [patch_inside hin.1 hin.2, hsame]
    · exact (patch_outside (by omega)).symm

/-- What a read leaves behind. -/
theorem hwaddrRead_touch (h : s.hwaddrRead stack addr len.bytes = .ok (v, s')) :
    s' = s.touch addr len.bytes := by
  rw [hwaddrRead, bind_eq_ok] at h
  obtain ⟨⟨data, s₁⟩, hread, hret⟩ := h
  obtain rfl : s₁ = s' := congrArg Prod.snd (pure_eq_ok.mp hret)
  simp only [dramRead, ddr3Read, bind_eq_ok] at hread
  obtain ⟨⟨burst, s₂⟩, ⟨_, -, hfirst⟩, hrest⟩ := hread
  have hs₂ : openRow s (DramAddr.ofAddr (addr &&& ~~~BURST_MASK)) = s₂ :=
    congrArg Prod.snd (pure_eq_ok.mp hfirst)
  rw [touch]
  dsimp only at hrest ⊢
  rw [hs₂]
  by_cases hcross : (addr &&& BURST_MASK).toNat + len.bytes > BURST_LEN
  · rw [if_pos hcross] at hrest ⊢
    obtain ⟨⟨burst', s₃⟩, hsecond, hret'⟩ := bind_eq_ok.mp hrest
    obtain ⟨_, -, hsecond'⟩ := bind_eq_ok.mp hsecond
    obtain rfl : s₃ = s₁ := congrArg Prod.snd (pure_eq_ok.mp hret')
    exact (congrArg Prod.snd (pure_eq_ok.mp hsecond')).symm
  · rw [if_neg hcross] at hrest ⊢
    exact (congrArg Prod.snd (pure_eq_ok.mp hrest)).symm

/-- A read that completes: its value, and the state after it. -/
theorem hwaddrRead_ok (hs : s.Coherent) (h : s.hwaddrRead stack addr len.bytes = .ok (v, s')) :
    v = BitVec.ofNat 32 (load s.dram addr.toNat len.bytes) ∧ s' = s.touch addr len.bytes ∧
      s'.Coherent ∧ s'.dram = s.dram := by
  have htouch := hwaddrRead_touch h
  by_cases hr : FlatMem.InRange addr len.bytes
  · obtain ⟨s₁, hread, hc, hd⟩ := hwaddrRead_spec hs stack hr
    rw [hread, Except.ok.injEq, Prod.mk.injEq] at h
    obtain ⟨rfl, rfl⟩ := h
    exact ⟨rfl, htouch, hc, hd⟩
  · rw [hwaddrRead_outOfRange hs stack hr] at h
    cases h

end Ddr3

namespace Devices

/-! ## One access -/

variable {s s' : Devices} {stack : Nat → Byte}

/-- The table is read from `hw_mem`, and its rows are open afterwards. -/
theorem readPrdt_ok {addr : Addr} {hi_entry : BitVec 32} (hs : s.ddr3.Coherent)
    (h : s.readPrdt stack = .ok (addr, hi_entry, s')) :
    addr = BitVec.ofNat 32 (load s.ddr3.dram s.prdtAddr.toNat 4) ∧
      hi_entry = BitVec.ofNat 32 (load s.ddr3.dram (s.prdtAddr + 4).toNat 4) ∧
      ∃ mem, s' = { s with ddr3 := mem } ∧
        mem = (s.ddr3.touch s.prdtAddr 4).touch (s.prdtAddr + 4) 4 ∧
        mem.Coherent ∧ mem.dram = s.ddr3.dram := by
  simp only [readPrdt, bind_eq_ok] at h
  obtain ⟨⟨v, m₁⟩, hread₁, ⟨w, m₂⟩, hread₂, hret⟩ := h
  have hlong : Width.long.bytes = 4 := rfl
  rw [← hlong] at hread₁ hread₂
  obtain ⟨hv, hm₁, hc₁, hd₁⟩ := Ddr3.hwaddrRead_ok hs hread₁
  obtain ⟨hw, hm₂, hc₂, hd₂⟩ := Ddr3.hwaddrRead_ok hc₁ hread₂
  have hret' := pure_eq_ok.mp hret
  rw [Prod.mk.injEq, Prod.mk.injEq] at hret'
  obtain ⟨rfl, rfl, rfl⟩ := hret'
  rw [hd₁] at hw hd₂
  rw [hm₁] at hm₂
  exact ⟨hv, hw, m₂, rfl, hm₂, hc₂, hd₂⟩

/-- `fread` to memory: the bytes that were there are replaced by those of the file. -/
theorem freadToMem_ok {addr : Addr} {n ret : Nat} (h : s.freadToMem addr n = .ok (ret, s')) :
    s'.maps = s.maps ∧ s'.ddr3 = { s.ddr3 with
      dram := patch s.ddr3.dram addr.toNat (s.disk_fp.avail n)
        (fun i => s.disk_fp.bytes (s.disk_fp.pos + i)) } := by
  rw [freadToMem] at h
  dsimp only at h
  by_cases hin : s.disk_fp.avail n = 0 ∨ addr.toNat + s.disk_fp.avail n ≤ HW_MEM_SIZE
  · rw [if_pos hin, Except.ok.injEq, Prod.mk.injEq] at h
    obtain ⟨-, rfl⟩ := h
    exact ⟨rfl, rfl⟩
  · rw [if_neg hin] at h
    cases h

theorem raiseIde_frame (h : s.raiseIde = .ok s') : s'.maps = s.maps ∧ s'.ddr3 = s.ddr3 := by
  rw [raiseIde, bind_eq_ok] at h
  obtain ⟨pic, -, hret⟩ := h
  obtain rfl := pure_eq_ok.mp hret
  exact ⟨rfl, rfl⟩

/-- A DMA read that completes leaves the row buffers right iff it stays clear. -/
theorem dmaRead_coherent_iff (hs : s.ddr3.Coherent) (h : s.dmaRead stack = .ok s') :
    s'.maps = s.maps ∧ (s'.ddr3.Coherent ↔ s.DmaClear) := by
  simp only [dmaRead, bind_eq_ok] at h
  obtain ⟨⟨addr, hi_entry, s₁⟩, hprdt, ⟨ret, s₂⟩, hfread, _, -, _, -, hraise⟩ := h
  obtain ⟨haddr, hhi, mem, rfl, hmem, hcoh, hdram⟩ := readPrdt_ok hs hprdt
  obtain ⟨hmaps, hddr3⟩ := freadToMem_ok hfread
  obtain ⟨hmaps', hddr3'⟩ := raiseIde_frame hraise
  refine ⟨hmaps'.trans hmaps, ?_⟩
  have hfinal : s'.ddr3 = s₂.ddr3 := hddr3'
  rw [hfinal, hddr3]
  refine (Ddr3.coherent_stored_iff hcoh _ _ _).trans ?_
  rw [hdram, hmem, haddr, hhi]
  rfl

/-! ## Frames -/

theorem countTransfer_frame (s : Devices) :
    s.countTransfer.maps = s.maps ∧ s.countTransfer.ddr3 = s.ddr3 := by
  rw [countTransfer]
  by_cases hend : s.byte_cnt + 4 = 512
  · rw [if_pos hend]
    exact ⟨rfl, rfl⟩
  · rw [if_neg hend]
    exact ⟨rfl, rfl⟩

theorem writeData_frame (h : s.writeData = .ok s') : s'.maps = s.maps ∧ s'.ddr3 = s.ddr3 := by
  simp only [writeData, bind_eq_ok] at h
  obtain ⟨_, -, _, -, hret⟩ := h
  obtain rfl := pure_eq_ok.mp hret
  exact countTransfer_frame _

theorem readData_frame (h : s.readData = .ok s') : s'.maps = s.maps ∧ s'.ddr3 = s.ddr3 := by
  simp only [readData, bind_eq_ok] at h
  obtain ⟨_, -, _, -, hret⟩ := h
  obtain rfl := pure_eq_ok.mp hret
  exact countTransfer_frame _

theorem command_frame (h : s.command = .ok s') : s'.maps = s.maps ∧ s'.ddr3 = s.ddr3 := by
  by_cases hread : s.idePort 7 = 0x20
  · rw [command_read hread] at h
    have hframe := raiseIde_frame h
    exact hframe
  · by_cases hwrite : s.idePort 7 = 0x30
    · rw [command_write hwrite, Except.ok.injEq] at h
      subst h
      exact ⟨rfl, rfl⟩
    · rw [command, if_neg (not_or.mpr ⟨hread, hwrite⟩)] at h
      by_cases hdma : s.idePort 7 = 0xc8
      · rw [if_pos hdma] at h
        obtain rfl := pure_eq_ok.mp h
        exact ⟨rfl, rfl⟩
      · rw [if_neg hdma] at h
        cases h

/-- The registers of the disk reach neither the map nor the memory. -/
theorem ideIoHandler_frame {addr : BitVec 16} {len : Nat} {is_write : Bool}
    (h : s.ideIoHandler addr len is_write = .ok s') : s'.maps = s.maps ∧ s'.ddr3 = s.ddr3 := by
  rw [ideIoHandler, bind_eq_ok] at h
  obtain ⟨_, -, h⟩ := h
  cases is_write with
  | true =>
      rw [if_pos rfl] at h
      split at h
      · exact writeData_frame h
      · split at h
        · exact command_frame h
        · obtain rfl := pure_eq_ok.mp h
          exact ⟨rfl, rfl⟩
  | false =>
      rw [if_neg Bool.false_ne_true] at h
      split at h
      · exact readData_frame h
      · obtain rfl := pure_eq_ok.mp h
        exact ⟨rfl, rfl⟩

theorem bmrIoHandler_coherent_iff {addr : BitVec 16} (hs : s.ddr3.Coherent)
    (h : s.bmrIoHandler stack addr true = .ok s') :
    s'.maps = s.maps ∧ (s'.ddr3.Coherent ↔ (s.StartsDma addr → s.DmaClear)) := by
  have hidle : ¬ s.StartsDma addr → s' = s →
      s'.maps = s.maps ∧ (s'.ddr3.Coherent ↔ (s.StartsDma addr → s.DmaClear)) := by
    rintro hno rfl
    exact ⟨rfl, iff_of_true hs fun hstart => absurd hstart hno⟩
  rw [bmrIoHandler, if_pos rfl] at h
  by_cases haddr : addr = BMR_PORT
  · rw [if_pos haddr] at h
    by_cases hstart : s.bmr 0 &&& 0x1 ≠ 0
    · rw [if_pos hstart] at h
      by_cases hread : s.bmr 0 &&& 0x8 ≠ 0
      · rw [if_pos hread] at h
        obtain ⟨hmaps, hiff⟩ := dmaRead_coherent_iff hs h
        refine ⟨hmaps, hiff.trans ?_⟩
        exact ⟨fun hc _ => hc, fun hc => hc ⟨haddr, hstart, hread⟩⟩
      · rw [if_neg hread] at h
        cases h
    · rw [if_neg hstart] at h
      exact hidle (fun hc => hstart hc.2.1) (pure_eq_ok.mp h).symm
  · rw [if_neg haddr] at h
    exact hidle (fun hc => haddr hc.1) (pure_eq_ok.mp h).symm

/-- `pio_callback` keeps the row buffers right iff a DMA read it starts stays clear. -/
theorem pioCallback_coherent_iff {addr : BitVec 16} {len : Nat} (hmaps : s.maps = ideMaps)
    (hlen : len ≤ 4) (hs : s.ddr3.Coherent) (h : s.pioCallback stack addr len true = .ok s') :
    s'.maps = s.maps ∧ (s'.ddr3.Coherent ↔ (s.StartsDma addr → s.DmaClear)) := by
  have hquiet : addr ≠ BMR_PORT → s'.maps = s.maps → s'.ddr3 = s.ddr3 →
      s'.maps = s.maps ∧ (s'.ddr3.Coherent ↔ (s.StartsDma addr → s.DmaClear)) := by
    intro hne hm hd
    rw [hd]
    exact ⟨hm, iff_of_true hs fun hstart => absurd hstart.1 hne⟩
  rw [pioCallback, hmaps, ideMaps, pioCallbackFrom] at h
  split at h
  · next hide =>
      have hframe := ideIoHandler_frame h
      refine hquiet ?_ hframe.1 hframe.2
      rintro rfl
      have hhigh : 0xc040 + len - 1 ≤ 0x1f7 := hide.2
      omega
  · rw [pioCallbackFrom] at h
    split at h
    · exact bmrIoHandler_coherent_iff hs h
    · next hbmr =>
        obtain rfl := Except.ok.inj h
        refine hquiet ?_ rfl rfl
        rintro rfl
        apply hbmr
        refine ⟨Nat.le_refl _, ?_⟩
        show 0xc040 + len - 1 ≤ 0xc047
        omega

/-- A callback for a read reaches neither the map nor the memory. -/
theorem pioCallback_read_frame {addr : BitVec 16} {len : Nat} (hmaps : s.maps = ideMaps)
    (h : s.pioCallback stack addr len false = .ok s') :
    s'.maps = s.maps ∧ s'.ddr3 = s.ddr3 := by
  rw [pioCallback, hmaps, ideMaps, pioCallbackFrom] at h
  split at h
  · exact ideIoHandler_frame h
  · rw [pioCallbackFrom] at h
    split at h
    · obtain rfl := pure_eq_ok.mp (h : s.bmrIoHandler stack addr false = .ok s')
      exact ⟨rfl, rfl⟩
    · obtain rfl := Except.ok.inj h
      exact ⟨rfl, rfl⟩

/-! ## Runs -/

/-- Coherent row buffers make the memory answer as `hw_mem` would. -/
theorem faithful_of_coherent (hs : s.ddr3.Coherent) (op : BusOp) : s.Faithful op := by
  cases op with
  | hwaddrRead stack addr len =>
      show (s.ddr3.hwaddrRead stack addr len.bytes).map Prod.fst = _
      by_cases hr : FlatMem.InRange addr len.bytes
      · obtain ⟨m, hread, -, -⟩ := Ddr3.hwaddrRead_spec hs stack hr
        rw [hread, FlatMem.read, decide_eq_true hr]
        rfl
      · rw [Ddr3.hwaddrRead_outOfRange hs stack hr, FlatMem.read, decide_eq_false hr]
        rfl
  | hwaddrWrite stack addr len data =>
      show (s.ddr3.hwaddrWrite stack addr len.bytes data).map Ddr3.dram = _
      by_cases hr : FlatMem.InRange addr len.bytes
      · obtain ⟨m, hwrite, -, hd⟩ := Ddr3.hwaddrWrite_spec hs stack data hr
        rw [hwrite, FlatMem.write, decide_eq_true hr]
        exact congrArg Except.ok hd
      · rw [Ddr3.hwaddrWrite_outOfRange hs stack data hr, FlatMem.write, decide_eq_false hr]
        rfl
  | pioRead stack addr len => trivial
  | pioWrite stack addr len data => trivial

/-- An access keeps the row buffers right iff it is clear. -/
theorem busStep_coherent_iff (hmaps : s.maps = ideMaps) (hs : s.ddr3.Coherent) {op : BusOp}
    {o : Option (BitVec 32)} (h : s.busStep op = .ok (o, s')) :
    s'.maps = ideMaps ∧ (s'.ddr3.Coherent ↔ s.Clear op) := by
  cases op with
  | hwaddrRead stack addr len =>
      obtain ⟨⟨v, m⟩, hread, hret⟩ := bind_eq_ok.mp h
      obtain ⟨-, -, hc, -⟩ := Ddr3.hwaddrRead_ok hs hread
      obtain ⟨-, rfl⟩ := Prod.mk.inj (pure_eq_ok.mp hret)
      exact ⟨hmaps, iff_of_true hc trivial⟩
  | hwaddrWrite stack addr len data =>
      obtain ⟨m, hwrite, hret⟩ := bind_eq_ok.mp h
      obtain ⟨-, rfl⟩ := Prod.mk.inj (pure_eq_ok.mp hret)
      refine ⟨hmaps, iff_of_true ?_ trivial⟩
      by_cases hr : FlatMem.InRange addr len.bytes
      · obtain ⟨m', hwrite', hc, -⟩ := Ddr3.hwaddrWrite_spec hs stack data hr
        obtain rfl := Except.ok.inj (hwrite'.symm.trans hwrite)
        exact hc
      · rw [Ddr3.hwaddrWrite_outOfRange hs stack data hr] at hwrite
        cases hwrite
  | pioRead stack addr len =>
      obtain ⟨⟨v, t⟩, hread, hret⟩ := bind_eq_ok.mp h
      obtain ⟨-, rfl⟩ := Prod.mk.inj (pure_eq_ok.mp hret)
      simp only [Devices.pioRead, bind_eq_ok] at hread
      obtain ⟨_, -, _, -, t', hcallback, hret'⟩ := hread
      obtain ⟨-, rfl⟩ := Prod.mk.inj (pure_eq_ok.mp hret')
      obtain ⟨hm, hd⟩ := pioCallback_read_frame hmaps hcallback
      refine ⟨hm.trans hmaps, iff_of_true ?_ trivial⟩
      rw [hd]
      exact hs
  | pioWrite stack addr len data =>
      obtain ⟨t, hwrite, hret⟩ := bind_eq_ok.mp h
      obtain ⟨-, rfl⟩ := Prod.mk.inj (pure_eq_ok.mp hret)
      simp only [Devices.pioWrite, bind_eq_ok] at hwrite
      obtain ⟨_, hsize, _, -, hcallback⟩ := hwrite
      have hlen : len ≤ 4 := by
        have := cAssert_eq_ok.mp hsize
        simp only [Bool.or_eq_true, beq_iff_eq] at this
        omega
      obtain ⟨hm, hiff⟩ := pioCallback_coherent_iff (s := s.portWritten addr len data) hmaps hlen hs
        hcallback
      exact ⟨hm.trans hmaps, hiff⟩

/-- From right row buffers on, they stay right exactly as long as every access is clear. -/
theorem staysCoherent_iff (ops : List BusOp) : ∀ {s : Devices}, s.maps = ideMaps →
    s.ddr3.Coherent → (s.StaysCoherent ops ↔ s.AllClear ops) := by
  induction ops with
  | nil => exact fun _ hs => iff_of_true hs trivial
  | cons op ops ih =>
      intro s hmaps hs
      apply Iff.intro
      · rintro ⟨-, -, hrest⟩ o s' hstep
        obtain ⟨hmaps', hiff⟩ := busStep_coherent_iff hmaps hs hstep
        have hstays := hrest o s' hstep
        have hs' : s'.ddr3.Coherent := by
          cases ops with
          | nil => exact hstays
          | cons => exact hstays.1
        exact ⟨hiff.mp hs', (ih hmaps' hs').mp hstays⟩
      · intro hclear
        refine ⟨hs, faithful_of_coherent hs op, ?_⟩
        intro o s' hstep
        obtain ⟨hmaps', hiff⟩ := busStep_coherent_iff hmaps hs hstep
        obtain ⟨hop, hrest⟩ := hclear o s' hstep
        exact (ih hmaps' (hiff.mpr hop)).mpr hrest

/-- **Row buffers and DMA.** From `init_ddr3` and `init_ide` on, in every run of memory and
    port accesses: every valid row buffer equals the row of `hw_mem` it names in every state,
    and the memory answers as `hw_mem` would, exactly if no DMA read of the run changes a byte
    of a row that is open. -/
theorem dma_staysCoherent_iff (ddr3 : Ddr3) (fp : DiskFile) (ops : List BusOp) :
    ∃ s, initIde (static ddr3 fp) = .ok s ∧ (s.StaysCoherent ops ↔ s.AllClear ops) :=
  ⟨_, rfl, staysCoherent_iff ops rfl (Ddr3.coherent_init ddr3)⟩

/-- A table at 0 that asks for four bytes to address 16, and a disk full of sevens. -/
def tableAtZero : Ddr3 where
  dram := fun a => if a = 0 then 16 else if a = 4 then 4 else if a = 7 then 0x80 else 0
  rowbufs := fun _ _ => { buf := fun _ => 0, row_idx := 0, valid := false }

/-- Once the word at 16 has been read, a DMA read stores four sevens there, and the next read
    of it still returns 0. -/
theorem dma_leaves_stale_row :
    ∃ s, initIde (static tableAtZero ⟨512, fun _ => 7, 0, false⟩) = .ok s ∧
      ¬ s.StaysCoherent [.hwaddrRead (fun _ => 0) 16 .long, .pioWrite (fun _ => 0) BMR_PORT 1 9,
        .hwaddrRead (fun _ => 0) 16 .long] := by
  refine ⟨_, rfl, ?_⟩
  rintro ⟨-, -, hstays⟩
  obtain ⟨-, -, hstays'⟩ := hstays _ _ rfl
  obtain ⟨-, hfaithful, -⟩ := hstays' _ _ rfl
  have hval : (0 : BitVec 32) = 0x07070707 := Except.ok.inj hfaithful
  exact absurd hval (by decide)

end Devices

end Nemu
