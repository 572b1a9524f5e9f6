import Beamline.Decimal.Scan

/-!
# Texts that start with ASCII

An ASCII character is stored as one byte, its code, and the first byte of any other character is not
an ASCII code. So as long as a text starts with ASCII characters, offsets in the text and in its
bytes are the same, and no slice at such an offset fails.

* `leadByte_eq_iff`: an ASCII character is told by its byte.
* `bytesFrom_bytes_append`, `charsUpTo_append`: the slices at the end of ASCII characters.
-/

namespace Beamline.Text

/-! ## First bytes -/

/-- The first byte of a character. -/
def leadByte (c : Char) : UInt8 :=
  (String.utf8EncodeChar c).headD 0

variable {a c : Char}

theorem utf8EncodeChar_of_ascii (h : c.toNat < 128) : String.utf8EncodeChar c = [c.toUInt8] := by
  have hcode : c.val.toNat ≤ 0x7f := Nat.le_of_lt_succ h
  unfold String.utf8EncodeChar
  exact if_pos hcode

theorem leadByte_of_ascii (h : c.toNat < 128) : leadByte c = c.toUInt8 := by
  rw [leadByte, utf8EncodeChar_of_ascii h, List.headD_cons]

/-- No character outside of ASCII starts with an ASCII code. -/
theorem le_toNat_leadByte (h : 128 ≤ c.toNat) : 128 ≤ (leadByte c).toNat := by
  have hcode : ¬ c.val.toNat ≤ 0x7f := Nat.not_le_of_lt h
  unfold leadByte String.utf8EncodeChar
  dsimp only
  rw [if_neg hcode]
  split
  · simp only [List.headD_cons, UInt8.toNat_ofNat']
    omega
  split
  · simp only [List.headD_cons, UInt8.toNat_ofNat']
    omega
  · simp only [List.headD_cons, UInt8.toNat_ofNat']
    omega

theorem toNat_toUInt8_of_ascii (h : c.toNat < 128) : c.toUInt8.toNat = c.toNat := by
  show c.toNat % 256 = c.toNat
  omega

/-- A first byte is an ASCII code only as that of the character itself. -/
theorem toNat_leadByte_eq_iff {code : Nat} (h : code < 128) :
    (leadByte c).toNat = code ↔ c.toNat = code := by
  rcases Nat.lt_or_ge c.toNat 128 with hascii | hwide
  · rw [leadByte_of_ascii hascii, toNat_toUInt8_of_ascii hascii]
  · have hlead := le_toNat_leadByte hwide
    omega

/-- An ASCII character is told by its byte. -/
theorem leadByte_eq_iff (h : a.toNat < 128) : leadByte c = a.toUInt8 ↔ c = a := by
  rw [← UInt8.toNat_inj, toNat_toUInt8_of_ascii h, toNat_leadByte_eq_iff h, Char.toNat_inj]

/-! ## Slices -/

/-- All characters are ASCII. -/
def IsAscii (cs : List Char) : Prop :=
  ∀ c ∈ cs, c.toNat < 128

variable {cs rest : List Char}

theorem isAscii_nil : IsAscii [] := fun _ hc =>
  absurd hc List.not_mem_nil

theorem IsAscii.append (h : IsAscii cs) (hrest : IsAscii rest) : IsAscii (cs ++ rest) := fun c hc =>
  (List.mem_append.1 hc).elim (h c) (hrest c)

theorem IsAscii.cons (h : IsAscii cs) (ha : a.toNat < 128) : IsAscii (a :: cs) := fun c hc =>
  (List.mem_cons.1 hc).elim (fun heq => heq ▸ ha) (h c)

theorem IsAscii.concat (h : IsAscii cs) (ha : a.toNat < 128) : IsAscii (cs ++ [a]) :=
  h.append (isAscii_nil.cons ha)

theorem bytes_cons (c : Char) (cs : List Char) :
    bytes (c :: cs) = String.utf8EncodeChar c ++ bytes cs :=
  List.flatMap_cons

theorem bytes_append (cs rest : List Char) : bytes (cs ++ rest) = bytes cs ++ bytes rest :=
  List.flatMap_append

theorem exists_bytes_cons (c : Char) (cs : List Char) :
    ∃ bs, bytes (c :: cs) = leadByte c :: bs := by
  obtain ⟨b, bs, hbytes⟩ := List.exists_cons_of_ne_nil (String.utf8EncodeChar_ne_nil (c := c))
  rw [bytes_cons, leadByte, hbytes]
  exact ⟨bs ++ bytes cs, rfl⟩

theorem head?_bytes (cs : List Char) : (bytes cs)[0]? = cs.head?.map leadByte := by
  cases cs with
  | nil => rfl
  | cons c cs =>
    obtain ⟨bs, hbytes⟩ := exists_bytes_cons c cs
    rw [hbytes]
    rfl

/-- In ASCII characters and bytes are counted alike. -/
theorem length_bytes (h : IsAscii cs) : (bytes cs).length = cs.length := by
  induction cs with
  | nil => rfl
  | cons c cs ih =>
    rw [bytes_cons, utf8EncodeChar_of_ascii (h c List.mem_cons_self), List.length_append,
      ih fun c' hc' => h c' (List.mem_cons_of_mem c hc'), List.length_singleton, List.length_cons,
      Nat.add_comm]

theorem length_le_length_bytes_append (h : IsAscii cs) (rest : List Char) :
    cs.length ≤ (bytes (cs ++ rest)).length := by
  rw [bytes_append, List.length_append, length_bytes h]
  exact Nat.le_add_right ..

/-- The byte behind ASCII characters is the first byte of the next character. -/
theorem getElem?_bytes_append (h : IsAscii cs) (rest : List Char) :
    (bytes (cs ++ rest))[cs.length]? = rest.head?.map leadByte := by
  rw [bytes_append, ← length_bytes h, List.getElem?_append_right (Nat.le_refl _), Nat.sub_self,
    head?_bytes]

/-- The bytes behind ASCII characters are those of the characters that follow. -/
theorem bytesFrom_bytes_append (h : IsAscii cs) (rest : List Char) :
    bytesFrom (bytes (cs ++ rest)) cs.length = .ok (bytes rest) := by
  rw [bytesFrom, if_pos (length_le_length_bytes_append h rest), bytes_append, ← length_bytes h,
    List.drop_left]

/-- Behind ASCII characters the text can be cut. -/
theorem charsUpTo_append (h : IsAscii cs) (rest : List Char) :
    charsUpTo cs.length (cs ++ rest) = .ok cs := by
  induction cs with
  | nil => rw [List.length_nil, charsUpTo]
  | cons c cs ih =>
    have hsize : c.utf8Size = 1 := by
      rw [← String.length_utf8EncodeChar, utf8EncodeChar_of_ascii (h c List.mem_cons_self),
        List.length_singleton]
    rw [List.length_cons, List.cons_append, charsUpTo, hsize, if_pos (Nat.le_add_left ..),
      Nat.add_sub_cancel, ih fun c' hc' => h c' (List.mem_cons_of_mem c hc')]
    rfl

end Beamline.Text
