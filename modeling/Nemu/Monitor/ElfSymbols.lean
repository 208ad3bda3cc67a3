/-
  Nemu.Monitor.ElfSymbols

  Executables as sections and symbols, and that the debugger finds the symbols of the file:
  what `getValue` does on the loaded tables is what the evaluator of expressions is modelled
  with, `Nemu.getValue` over the list of symbols.
-/

import Mathlib.Data.List.Infix
import Nemu.Lib.Outcome
import Nemu.Monitor.ElfTables

namespace Nemu.Elf

open Outcome

/-! ## Executables -/

/-- The string `s` stands at `i`, with its terminator. -/
structure CStr (buf : List Byte) (i : Nat) (s : List Byte) : Prop where
  here : s ++ [0] <+: buf.drop i
  text : 0 ∉ s

/-- What a section is to the debugger. -/
structure Section where
  type : BitVec 32
  name : List Byte
  content : List Byte
deriving DecidableEq

def Section.isSymtab (s : Section) : Bool := s.type == SHT_SYMTAB && s.name == symtabName

def Section.isStrtab (s : Section) : Bool := s.type == SHT_STRTAB && s.name == strtabName

/-- The content of section `i` of the table at `shoff` is this. -/
def ContentAt (file : List Byte) (shoff i : Nat) (content : List Byte) : Prop :=
  ∃ offset size, wordIn file (shoff + (sizeofShdr * i + 16)) = .ok offset ∧
    wordIn file (shoff + (sizeofShdr * i + 20)) = .ok size ∧ size ≠ 0 ∧
      (file.drop offset.toNat).take size.toNat = content ∧ content.length = size.toNat

/-- Section `i` of the table; only the two tables need to have a content in the file. -/
structure SectionAt (file names : List Byte) (shoff i : Nat) (s : Section) : Prop where
  type : wordIn file (shoff + (sizeofShdr * i + 4)) = .ok s.type
  name : ∃ x, wordIn file (shoff + sizeofShdr * i) = .ok x ∧ CStr names x.toNat s.name
  content : s.isSymtab = true ∨ s.isStrtab = true → ContentAt file shoff i s.content

/-- The first fields of an executable for the i386, little-endian. -/
structure IsHeader (file : List Byte) : Prop where
  mag : file.take 4 = magic
  class32 : file[4]? = some 1
  data : file[5]? = some 1
  identVersion : file[6]? = some 1
  osabi : file[7]? = some 0 ∨ file[7]? = some 3
  abiversion : file[8]? = some 0
  type : halfIn file 16 = .ok 2
  machine : halfIn file 18 = .ok 3
  version : wordIn file 20 = .ok 1

/-- An executable of these sections; `names` is its section header string table. -/
structure IsElf (file names : List Byte) (sections : List Section) : Prop where
  header : IsHeader file
  entry : halfIn file 46 = .ok (BitVec.ofNat 16 sizeofShdr)
  count : ∃ n, halfIn file 48 = .ok n ∧ n.toNat = sections.length
  nonempty : sections ≠ []
  table : ∃ shoff, wordIn file 32 = .ok shoff ∧
    shoff.toNat + sizeofShdr * sections.length ≤ file.length ∧
      (∃ k, halfIn file 50 = .ok k ∧ k.toNat < sections.length ∧
        ContentAt file shoff.toNat k.toNat names) ∧
      ∀ i s, sections[i]? = some s → SectionAt file names shoff.toNat i s

/-- The characters of a C string. -/
def charsOf (s : List Byte) : List Char := s.map fun b => Char.ofNat b.toNat

/-- Entry `i` of the symbol table. -/
structure SymbolAt (t : Tables) (i : Nat) (sym : Sym) : Prop where
  info : byteIn t.symtab (sizeofSym * i + 12) = .ok sym.st_info
  value : wordIn t.symtab (sizeofSym * i + 4) = .ok sym.st_value
  name : ∃ x s, wordIn t.symtab (sizeofSym * i) = .ok x ∧ CStr t.strtab x.toNat s ∧
    sym.name = charsOf s

/-- The last of some sections, which counts if there are more of one name. -/
def lastOf (p : Section → Bool) (sections : List Section) : Option Section :=
  (sections.filter p).getLast?

/-- An executable with these symbols. -/
structure HasSymbols (file : List Byte) (syms : List Sym) : Prop where
  elf : ∃ names sections symtab strtab, IsElf file names sections ∧
    lastOf Section.isSymtab sections = some symtab ∧
      lastOf Section.isStrtab sections = some strtab ∧
        symtab.content.length = sizeofSym * syms.length ∧
          ∀ i sym, syms[i]? = some sym →
            SymbolAt ⟨strtab.content, symtab.content, syms.length⟩ i sym

/-! ## Reading -/

section Reading

variable {buf str s : List Byte} {i : Nat}

theorem byteIn_eq_ok {b : Byte} : byteIn buf i = .ok b ↔ buf[i]? = some b := by
  rw [byteIn]
  cases buf[i]? with
  | none => exact ⟨nofun, nofun⟩
  | some c => exact ⟨fun h => by cases h; rfl, fun h => by cases h; rfl⟩

theorem halfIn_lt {x : BitVec 16} (h : halfIn buf i = .ok x) : i + 1 < buf.length := by
  obtain ⟨low, -, h⟩ := bind_eq_ok.mp h
  obtain ⟨high, hhigh, -⟩ := bind_eq_ok.mp h
  exact (List.getElem?_eq_some_iff.mp (byteIn_eq_ok.mp hhigh)).1

/-- A part of a file as a buffer of its own. -/
theorem byteIn_slice {file : List Byte} {offset size : Nat} (hi : i < size) :
    byteIn ((file.drop offset).take size) i = byteIn file (offset + i) := by
  rw [byteIn, byteIn, List.getElem?_take_of_lt hi, List.getElem?_drop]

theorem halfIn_slice {file : List Byte} {offset size : Nat} (hi : i + 1 < size) :
    halfIn ((file.drop offset).take size) i = halfIn file (offset + i) := by
  rw [halfIn, halfIn, byteIn_slice (by omega), byteIn_slice hi, Nat.add_assoc]

theorem wordIn_slice {file : List Byte} {offset size : Nat} (hi : i + 3 < size) :
    wordIn ((file.drop offset).take size) i = wordIn file (offset + i) := by
  rw [wordIn, wordIn, halfIn_slice (by omega), halfIn_slice (by omega), Nat.add_assoc]

theorem freadAt_eq {file : List Byte} {offset size : Nat} {got : List Byte} (hsize : size ≠ 0)
    (hgot : (file.drop offset).take size = got) (hlen : got.length = size) :
    freadAt file offset size = .ok got := by
  rw [freadAt, hgot, decide_eq_true ⟨hsize, hlen⟩]
  rfl

theorem CStr.tail {c : Byte} (h : CStr buf i (c :: s)) : buf[i]? = some c ∧ CStr buf (i + 1) s := by
  obtain ⟨⟨rest, hrest⟩, htext⟩ := h
  have hget : (buf.drop i)[0]? = some c := by
    rw [← hrest]
    rfl
  rw [List.getElem?_drop, Nat.add_zero] at hget
  refine ⟨hget, ⟨rest, ?_⟩, fun h0 => htext (List.mem_cons_of_mem _ h0)⟩
  rw [← List.drop_drop, ← hrest]
  rfl

theorem CStr.nil (h : CStr buf i []) : buf[i]? = some 0 := by
  obtain ⟨rest, hrest⟩ := h.here
  have hget : (buf.drop i)[0]? = some 0 := by
    rw [← hrest]
    rfl
  rwa [List.getElem?_drop, Nat.add_zero] at hget

theorem strcmpEq_eq (str : List Byte) (hstr : 0 ∉ str) :
    ∀ {i : Nat} {s : List Byte}, CStr buf i s → strcmpEq buf i str = .ok (decide (s = str)) := by
  induction str with
  | nil =>
      intro i s hs
      cases s with
      | nil =>
          rw [strcmpEq, byteIn_eq_ok.mpr hs.nil]
          rfl
      | cons d s =>
          have hd : d ≠ 0 := fun h => hs.text (h ▸ List.mem_cons_self ..)
          rw [strcmpEq, byteIn_eq_ok.mpr hs.tail.1, ok_bind, decide_eq_false (List.cons_ne_nil d s)]
          exact congrArg Except.ok (beq_false_of_ne hd)
  | cons c str ih =>
      intro i s hs
      have hc : 0 ≠ c := List.ne_of_not_mem_cons hstr
      have hstr' := List.not_mem_of_not_mem_cons hstr
      cases s with
      | nil =>
          rw [strcmpEq, byteIn_eq_ok.mpr hs.nil, ok_bind, if_neg hc,
            decide_eq_false (List.cons_ne_nil c str).symm]
          rfl
      | cons d s =>
          rw [strcmpEq, byteIn_eq_ok.mpr hs.tail.1, ok_bind]
          by_cases hdc : d = c
          · subst hdc
            rw [if_pos rfl, ih hstr' hs.tail.2]
            simp
          · rw [if_neg hdc, decide_eq_false fun h => hdc (List.cons.inj h).1]
            rfl

end Reading

/-! ## The sections -/

section Sections

variable {file names : List Byte} {sections : List Section} {shoff i : Nat} {s : Section}

/-- The section header table in its buffer. -/
def headersIn (file : List Byte) (shoff n : Nat) : List Byte :=
  (file.drop shoff).take (sizeofShdr * n)

theorem wordIn_headers {n k : Nat} (hi : i < n) (hk : k + 3 < sizeofShdr) :
    wordIn (headersIn file shoff n) (sizeofShdr * i + k) = wordIn file (shoff + (sizeofShdr * i + k)) := by
  refine wordIn_slice ?_
  rw [sizeofShdr] at hk ⊢
  omega

theorem isSection_eq {n : Nat} (hi : i < n) (hs : SectionAt file names shoff i s) (type : BitVec 32)
    {name : List Byte} (hname : 0 ∉ name) :
    isSection (headersIn file shoff n) names i type name =
      .ok (s.type == type && s.name == name) := by
  obtain ⟨x, hx, hstr⟩ := hs.name
  have hword : wordIn (headersIn file shoff n) (sizeofShdr * i) = .ok x :=
    (wordIn_headers (k := 0) hi (by decide)).trans hx
  rw [isSection, wordIn_headers hi (by decide), hs.type, ok_bind]
  by_cases htype : s.type = type
  · rw [if_pos htype, hword, ok_bind, strcmpEq_eq name hname hstr, beq_iff_eq.mpr htype,
      Bool.true_and, beq_eq_decide]
  · rw [if_neg htype, beq_false_of_ne htype, Bool.false_and]
    rfl

theorem readSection_eq {n : Nat} (hi : i < n) {content : List Byte}
    (h : ContentAt file shoff i content) :
    readSection file (headersIn file shoff n) i = .ok content := by
  obtain ⟨offset, size, hoffset, hsize, hsome, hgot, hlen⟩ := h
  rw [readSection, wordIn_headers hi (by decide), hsize, ok_bind, wordIn_headers hi (by decide),
    hoffset, ok_bind]
  exact freadAt_eq (fun h0 => hsome (BitVec.eq_of_toNat_eq h0)) hgot hlen

/-- What a section adds to what is loaded. -/
def Loading.add (t : Loading) (s : Section) : Loading :=
  if s.isSymtab then
    { t with symtab := some s.content, nr_symtab_entry := s.content.length / sizeofSym }
  else if s.isStrtab then { t with strtab := some s.content }
  else t

theorem loadSection_eq {n : Nat} (hi : i < n) (hs : SectionAt file names shoff i s) (t : Loading) :
    loadSection file (headersIn file shoff n) names i t = .ok (t.add s) := by
  have hsymtab : isSection (headersIn file shoff n) names i SHT_SYMTAB symtabName = .ok s.isSymtab :=
    isSection_eq hi hs SHT_SYMTAB (by decide)
  have hstrtab : isSection (headersIn file shoff n) names i SHT_STRTAB strtabName = .ok s.isStrtab :=
    isSection_eq hi hs SHT_STRTAB (by decide)
  rw [loadSection, hsymtab, ok_bind, Loading.add]
  by_cases h : s.isSymtab = true
  · rw [if_pos h, if_pos h, readSection_eq hi (hs.content (.inl h))]
    rfl
  rw [if_neg h, if_neg h, hstrtab, ok_bind]
  by_cases h' : s.isStrtab = true
  · rw [if_pos h', if_pos h', readSection_eq hi (hs.content (.inr h'))]
    rfl
  · rw [if_neg h', if_neg h']
    rfl

theorem loadSections_eq (hall : ∀ i s, sections[i]? = some s → SectionAt file names shoff i s)
    (n : Nat) : ∀ (i : Nat) (t : Loading), i + n = sections.length →
      loadSections file (headersIn file shoff sections.length) names n i t =
        .ok ((sections.drop i).foldl Loading.add t) := by
  induction n with
  | zero =>
      intro i t hi
      rw [loadSections, List.drop_of_length_le (by omega), List.foldl_nil]
  | succ n ih =>
      intro i t hi
      have hlt : i < sections.length := by omega
      rw [loadSections, loadSection_eq hlt (hall i _ (List.getElem?_eq_getElem hlt)), ok_bind,
        List.drop_eq_getElem_cons hlt, List.foldl_cons]
      exact ih (i + 1) _ (by omega)

theorem lastOf_cons (p : Section → Bool) (s : Section) (ss : List Section) :
    lastOf p (s :: ss) = (lastOf p ss).or (if p s then some s else none) := by
  rw [lastOf, lastOf, List.filter_cons]
  by_cases hp : p s = true
  · rw [if_pos hp, if_pos hp, List.getLast?_cons]
    cases (ss.filter p).getLast? <;> rfl
  · rw [if_neg hp, if_neg hp, Option.or_none]

-- no section is both tables
theorem isStrtab_of_isSymtab (h : s.isSymtab = true) : s.isStrtab = false := by
  have htype : s.type = SHT_SYMTAB := by
    rw [Section.isSymtab, Bool.and_eq_true, beq_iff_eq] at h
    exact h.1
  rw [Section.isStrtab, htype]
  rfl

theorem foldl_add (ss : List Section) : ∀ t : Loading,
    (ss.foldl Loading.add t).symtab = ((lastOf Section.isSymtab ss).map Section.content).or t.symtab ∧
      (ss.foldl Loading.add t).strtab = ((lastOf Section.isStrtab ss).map Section.content).or t.strtab ∧
        (ss.foldl Loading.add t).nr_symtab_entry =
          ((lastOf Section.isSymtab ss).map (·.content.length / sizeofSym)).getD t.nr_symtab_entry := by
  induction ss with
  | nil => exact fun t => ⟨rfl, rfl, rfl⟩
  | cons s ss ih =>
      intro t
      obtain ⟨hsymtab, hstrtab, hnr⟩ := ih (t.add s)
      rw [List.foldl_cons, hsymtab, hstrtab, hnr, lastOf_cons, lastOf_cons, Loading.add]
      by_cases h : s.isSymtab = true
      · rw [if_pos h, if_pos h, isStrtab_of_isSymtab h]
        cases lastOf Section.isSymtab ss <;> cases lastOf Section.isStrtab ss <;> exact ⟨rfl, rfl, rfl⟩
      rw [if_neg h, if_neg h]
      by_cases h' : s.isStrtab = true
      · rw [if_pos h', if_pos h']
        cases lastOf Section.isSymtab ss <;> cases lastOf Section.isStrtab ss <;> exact ⟨rfl, rfl, rfl⟩
      · rw [if_neg h', if_neg h']
        cases lastOf Section.isSymtab ss <;> cases lastOf Section.isStrtab ss <;> exact ⟨rfl, rfl, rfl⟩

end Sections

/-! ## Loading -/

theorem byteIn_take {file : List Byte} {n i : Nat} {b : Byte} (hi : i < n) (h : file[i]? = some b) :
    byteIn (file.take n) i = .ok b := by
  rw [byteIn_eq_ok, List.getElem?_take_of_lt hi, h]

theorem halfIn_take {file : List Byte} {n i : Nat} (hi : i + 1 < n) :
    halfIn (file.take n) i = halfIn file i := by
  have hslice : halfIn ((file.drop 0).take n) i = halfIn file (0 + i) := halfIn_slice hi
  rwa [List.drop_zero, Nat.zero_add] at hslice

theorem wordIn_take {file : List Byte} {n i : Nat} (hi : i + 3 < n) :
    wordIn (file.take n) i = wordIn file i := by
  have hslice : wordIn ((file.drop 0).take n) i = wordIn file (0 + i) := wordIn_slice hi
  rwa [List.drop_zero, Nat.zero_add] at hslice

theorem IsHeader.checked {file : List Byte} (h : IsHeader file) :
    checkHeader (file.take sizeofEhdr) = .ok () := by
  have hmag : (file.take sizeofEhdr).take 4 = magic := by
    rw [List.take_take]
    exact h.mag
  rw [checkHeader, hmag, byteIn_take (by decide) h.class32, byteIn_take (by decide) h.data,
    byteIn_take (by decide) h.identVersion, byteIn_take (by decide) h.abiversion,
    halfIn_take (by decide), h.type, halfIn_take (by decide), h.machine, wordIn_take (by decide),
    h.version]
  rcases h.osabi with hosabi | hosabi
  · rw [byteIn_take (by decide) hosabi]
    rfl
  · rw [byteIn_take (by decide) hosabi]
    rfl

/-- The tables of an executable are those of its last sections of these names. -/
theorem loadElfTables_eq {file names : List Byte} {sections : List Section} {symtab strtab : Section}
    (h : IsElf file names sections) (hsymtab : lastOf Section.isSymtab sections = some symtab)
    (hstrtab : lastOf Section.isStrtab sections = some strtab) :
    loadElfTables 2 (some file) =
      .ok ⟨strtab.content, symtab.content, symtab.content.length / sizeofSym⟩ := by
  obtain ⟨n, hn, hlen⟩ := h.count
  obtain ⟨shoff, hshoff, hfits, ⟨k, hk, hklt, hnames⟩, hall⟩ := h.table
  have hpos := List.length_pos_of_ne_nil h.nonempty
  have hsize : sizeofEhdr ≤ file.length := halfIn_lt hk
  have helf : freadAt file 0 sizeofEhdr = .ok (file.take sizeofEhdr) :=
    freadAt_eq (by decide) rfl (List.length_take_of_le hsize)
  have hsh : freadAt file shoff.toNat
      ((BitVec.ofNat 16 sizeofShdr).toNat * n.toNat) =
        .ok (headersIn file shoff.toNat sections.length) := by
    rw [hlen]
    refine freadAt_eq ?_ rfl ?_
    · exact Nat.mul_ne_zero (by decide) (by omega)
    · rw [headersIn, List.length_take, List.length_drop]
      show min (sizeofShdr * sections.length) _ = sizeofShdr * sections.length
      omega
  obtain ⟨hsym, hstr, hnr⟩ := foldl_add sections ⟨none, none, 0⟩
  rw [hsymtab] at hsym hnr
  rw [hstrtab] at hstr
  have hloaded := loadSections_eq hall sections.length 0 ⟨none, none, 0⟩ (Nat.zero_add _)
  rw [List.drop_zero] at hloaded
  have hwhole : wordIn (file.take sizeofEhdr) 32 = .ok shoff := (wordIn_take (by decide)).trans hshoff
  rw [loadElfTables]
  show (freadAt file 0 sizeofEhdr >>= _) = _
  rw [helf, ok_bind, h.header.checked, ok_bind, halfIn_take (by decide), h.entry, ok_bind,
    halfIn_take (by decide), hn, ok_bind, hwhole, ok_bind, hsh, ok_bind, halfIn_take (by decide), hk,
    ok_bind, readSection_eq hklt hnames, ok_bind, hlen, hloaded, ok_bind, hstr, hsym, hnr]
  rfl

/-! ## Looking up -/

theorem charsOf_inj {s s' : List Byte} : charsOf s = charsOf s' ↔ s = s' := by
  have hchar : ∀ b : Byte, (Char.ofNat b.toNat).toNat = b.toNat := by decide
  refine (List.map_injective_iff.mpr fun a b hab => ?_).eq_iff
  refine BitVec.eq_of_toNat_eq ?_
  rw [← hchar a, ← hchar b]
  exact congrArg Char.toNat hab

theorem getValueFrom_eq {t : Tables} {syms : List Sym}
    (hsyms : ∀ i sym, syms[i]? = some sym → SymbolAt t i sym) {str : List Byte} (hstr : 0 ∉ str)
    (success : Bool) (n : Nat) : ∀ i : Nat, i + n = syms.length →
      getValueFrom t str success n i = .ok (Nemu.getValue (syms.drop i) (charsOf str) success) := by
  induction n with
  | zero =>
      intro i hi
      rw [List.drop_of_length_le (by omega)]
      rfl
  | succ n ih =>
      intro i hi
      have hlt : i < syms.length := by omega
      obtain ⟨hinfo, hvalue, x, s, hx, hs, hname⟩ := hsyms i _ (List.getElem?_eq_getElem hlt)
      rw [getValueFrom, hinfo, ok_bind, List.drop_eq_getElem_cons hlt, Nemu.getValue, List.find?_cons,
        Sym.isObject, hname, ih (i + 1) (by omega)]
      by_cases hobject : syms[i].st_info &&& 0xf = STT_OBJECT
      · rw [if_pos hobject, hx, ok_bind, strcmpEq_eq str hstr hs, ok_bind, hobject, beq_self_eq_true,
          Bool.true_and]
        by_cases heq : s = str
        · rw [heq, decide_eq_true rfl, beq_self_eq_true, hvalue]
          rfl
        · rw [decide_eq_false heq, beq_false_of_ne fun h => heq (charsOf_inj.mp h)]
          rfl
      · rw [if_neg hobject, beq_false_of_ne hobject, Bool.false_and]
        rfl

/-- **The debugger finds the symbols of its executable.** The tables of any executable are
    loaded, and looking up any name in them gives the value of the first data object of that
    name, as in the list of its symbols. -/
theorem loaded_symbols (file : List Byte) (syms : List Sym) (h : HasSymbols file syms) :
    ∃ t, loadElfTables 2 (some file) = .ok t ∧
      ∀ str, 0 ∉ str → ∀ success,
        getValue t str success = .ok (Nemu.getValue syms (charsOf str) success) := by
  obtain ⟨names, sections, symtab, strtab, helf, hsymtab, hstrtab, hlen, hsyms⟩ := h.elf
  have hcount : symtab.content.length / sizeofSym = syms.length := by
    rw [hlen]
    exact Nat.mul_div_cancel_left _ (by decide)
  refine ⟨_, loadElfTables_eq helf hsymtab hstrtab, fun str hstr success => ?_⟩
  rw [getValue, hcount]
  exact getValueFrom_eq hsyms hstr success syms.length 0 (Nat.zero_add _)

/-- An executable with the variable `x` at `0x804a000`: header, section header table, section
    names, symbol and string table. -/
def oneSymbol : List Byte :=
  magic ++ [1, 1, 1, 0, 0, 0, 0, 0, 0, 0, 0, 0, 2, 0, 3, 0, 1, 0, 0, 0] ++ List.replicate 8 0 ++
    [52, 0, 0, 0] ++ List.replicate 4 0 ++ [52, 0, 0, 0, 0, 0, 40, 0, 3, 0, 2, 0] ++
    [1, 0, 0, 0, 2, 0, 0, 0] ++ List.replicate 8 0 ++ [189, 0, 0, 0, 16, 0, 0, 0] ++
    List.replicate 16 0 ++
    [9, 0, 0, 0, 3, 0, 0, 0] ++ List.replicate 8 0 ++ [205, 0, 0, 0, 3, 0, 0, 0] ++
    List.replicate 16 0 ++
    [0, 0, 0, 0, 3, 0, 0, 0] ++ List.replicate 8 0 ++ [172, 0, 0, 0, 17, 0, 0, 0] ++
    List.replicate 16 0 ++
    ([0] ++ symtabName ++ [0] ++ strtabName ++ [0]) ++
    [1, 0, 0, 0, 0x00, 0xa0, 0x04, 0x08, 4, 0, 0, 0, 0x11, 0, 0, 0] ++ [0, 0x78, 0]

theorem hasSymbols_oneSymbol : HasSymbols oneSymbol [⟨0x11, ['x'], 0x804a000⟩] := by
  refine ⟨[0] ++ symtabName ++ [0] ++ strtabName ++ [0],
    [⟨2, symtabName, [1, 0, 0, 0, 0x00, 0xa0, 0x04, 0x08, 4, 0, 0, 0, 0x11, 0, 0, 0]⟩,
      ⟨3, strtabName, [0, 0x78, 0]⟩, ⟨3, [], []⟩], _, _,
    ⟨⟨rfl, rfl, rfl, rfl, .inl rfl, rfl, rfl, rfl, rfl⟩, rfl, ⟨3, rfl, rfl⟩, List.cons_ne_nil _ _, 52,
      rfl, ?_, ⟨2, rfl, by decide, 172, 17, rfl, rfl, by decide, rfl, rfl⟩, ?_⟩, rfl, rfl, rfl, ?_⟩
  · have hlast : oneSymbol[207]? = some 0 := rfl
    exact (List.getElem?_eq_some_iff.mp hlast).1.le.trans' (by decide)
  · intro i s hs
    match i with
    | 0 =>
        cases hs
        exact ⟨rfl, ⟨1, rfl, by decide, by decide⟩, fun _ => ⟨189, 16, rfl, rfl, by decide, rfl, rfl⟩⟩
    | 1 =>
        cases hs
        exact ⟨rfl, ⟨9, rfl, by decide, by decide⟩, fun _ => ⟨205, 3, rfl, rfl, by decide, rfl, rfl⟩⟩
    | 2 =>
        cases hs
        exact ⟨rfl, ⟨0, rfl, by decide, by decide⟩, fun h => absurd h (by decide)⟩
    | _ + 3 => cases hs
  · intro i sym hsym
    match i with
    | 0 =>
        cases hsym
        exact ⟨rfl, rfl, 1, [0x78], rfl, ⟨by decide, by decide⟩, rfl⟩
    | _ + 1 => cases hsym

theorem loaded_symbols_one :
    ∃ t, loadElfTables 2 (some oneSymbol) = .ok t ∧
      ∀ str, 0 ∉ str → ∀ success, getValue t str success =
        .ok (Nemu.getValue [⟨0x11, ['x'], 0x804a000⟩] (charsOf str) success) :=
  loaded_symbols oneSymbol _ hasSymbols_oneSymbol

end Nemu.Elf
