import Mathlib.Data.Set.Function
import Beamline.Proofs.Expr.Written
import Beamline.Proofs.Spelling

/-!
# Reading formulas back

What is written for a well-bracketed formula is read back from left to right: from what comes first,
and from the mark behind it, it can be told what stands there. A word before a parenthesis is the
keyword of a call, one before a bracket names an element, and any other is a number or a name. So
two well-bracketed formulas for which the same is written differ in the spelling of their names at
most.

* `read?`: the reader, of which each level is left to read what stands inside of parentheses.
* `Formula.read?_written`: what is written for a formula is read back.
* `Formula.normalized_eq_of_written_eq`: formulas for which the same is written.
-/

namespace Beamline.Expr

/-! ## The reader -/

/-- What has been read, and what comes behind it. -/
abbrev Reading := Option (Formula × List Char)

/-- The characters up to the first mark. -/
def leadingWord (cs : List Char) : List Char :=
  cs.takeWhile fun c => !isMark c

/-- The characters from the first mark on. -/
def afterWord (cs : List Char) : List Char :=
  cs.dropWhile fun c => !isMark c

section

variable (number : List Char → Float) (inner : List Char → Reading)

/-- What a word stands for that is no keyword. -/
def readWord (word : List Char) : Formula :=
  if word.head?.any startsNumber then .number (number word) else .name (String.ofList word)

/-- What is in parentheses behind a word: one formula or two. -/
def readArguments? (word cs : List Char) : Reading :=
  match inner cs with
  | some (first, ')' :: rest) =>
    if word = [] then some (.parens first, rest)
    else (Function.ofKeyword? (String.ofList word)).map fun f => (.call f first, rest)
  | some (first, ',' :: rest) =>
    match inner rest with
    | some (second, ')' :: rest) =>
      (Operator.ofKeyword? (String.ofList word)).map fun op => (.binary op first second, rest)
    | _ => none
  | _ => none

/-- An operand, which is told by the mark behind its first word. -/
def readOperand? (cs : List Char) : Reading :=
  match afterWord cs with
  | '(' :: rest => readArguments? inner (leadingWord cs) rest
  | '[' :: rest => some (.lengthOf (String.ofList (leadingWord cs)), rest.drop 2)
  | rest => some (readWord number (leadingWord cs), rest)

/-- The operator that is written as the mark between its operands. -/
def infixOf? : Char → Option Operator
  | '+' => some .add
  | '-' => some .sub
  | '*' => some .mul
  | '/' => some .div
  | '^' => some .pow
  | _ => none

/-- An operand and, if an operator follows, another one. -/
def readInfix? (cs : List Char) : Reading :=
  match readOperand? number inner cs with
  | some (left, c :: rest) =>
    match infixOf? c with
    | some op =>
      (readOperand? number inner rest).map fun right => (.binary op left right.1, right.2)
    | none => some (left, c :: rest)
  | reading => reading

/-- A formula, of which the first character tells whether it is a text or has a sign. -/
def readFormula? : List Char → Reading
  | '"' :: cs =>
    some (.text (String.ofList (cs.takeWhile (· ≠ '"'))), (cs.dropWhile (· ≠ '"')).drop 1)
  | '+' :: cs =>
    (readOperand? number inner cs).map fun operand => (.signed .plus operand.1, operand.2)
  | '-' :: cs =>
    (readOperand? number inner cs).map fun operand => (.signed .minus operand.1, operand.2)
  | cs => readInfix? number inner cs

end

/-- The formula at the start, in which at most `levels` parentheses are open at once. -/
def read? (number : List Char → Float) : (levels : Nat) → List Char → Reading
  | 0, _ => none
  | levels + 1, cs => readFormula? number (read? number levels) cs

/-! ## Words -/

variable {word rest : List Char}

/-- A word ends at the mark behind it. -/
theorem leadingWord_append (hword : ∀ c ∈ word, isMark c = false)
    (hrest : ∀ c ∈ rest.head?, isMark c = true) :
    leadingWord (word ++ rest) = word ∧ afterWord (word ++ rest) = rest := by
  have hall : ∀ c ∈ word, (!isMark c) = true := by simpa using hword
  unfold leadingWord afterWord
  rw [List.takeWhile_append_of_pos hall, List.dropWhile_append_of_pos hall]
  cases rest with
  | nil => simp
  | cons c cs =>
    have hmark : isMark c = true := hrest c rfl
    simp [hmark]

theorem isMark_of_mem_text {x : Float} (hx : Decimal.IsUnsigned x) :
    ∀ c ∈ (Decimal.text x).toList, isMark c = false := by
  intro c hc
  have hmarks : ∀ d ∈ marks, ¬(d.isDigit = true ∨ d = '.') := by simp [marks]
  rw [isMark_eq_false_iff]
  exact fun hmark => hmarks c hmark (hx.isDigit_or_point hc)

theorem isMark_of_mem_keyword (f : Function) : ∀ c ∈ f.keyword.toList, isMark c = false := by
  cases f <;> simp [Function.keyword, isMark, marks]

theorem keyword_ne_nil (f : Function) : f.keyword.toList ≠ [] := by
  cases f <;> decide

theorem isMark_of_mem_operatorKeyword (op : Operator) :
    ∀ c ∈ op.keyword.toList, isMark c = false := by
  cases op <;> simp [Operator.keyword, isMark, marks]

/-- A symbol between operands is one mark, which tells the operator. -/
theorem Operator.exists_mark_of_symbol? {op : Operator} {symbol : String}
    (h : op.symbol? = some symbol) :
    ∃ c, symbol.toList = [c] ∧ infixOf? c = some op ∧ isMark c = true ∧ c ≠ '(' ∧ c ≠ '[' := by
  cases op <;> cases h <;> exact ⟨_, rfl, by decide⟩

/-! ## What comes behind -/

/-- Behind a formula comes nothing, or what ends it in a call or in parentheses. -/
def Ends (rest : List Char) : Prop :=
  ∀ c ∈ rest.head?, c = ',' ∨ c = ')'

/-- Behind an operand comes nothing, or a mark that does not go on with it. -/
def Follows (rest : List Char) : Prop :=
  ∀ c ∈ rest.head?, isMark c = true ∧ c ≠ '(' ∧ c ≠ '['

theorem Ends.follows (h : Ends rest) : Follows rest := by
  intro c hc
  rcases h c hc with rfl | rfl <;> decide

theorem ends_cons {c : Char} (h : c = ',' ∨ c = ')') (rest : List Char) : Ends (c :: rest) := by
  intro d hd
  obtain rfl : c = d := Option.some.inj hd
  exact h

/-- The characters start with neither a quote nor a sign. -/
def Opens (cs : List Char) : Prop :=
  ∃ c rest, cs = c :: rest ∧ c ≠ '"' ∧ c ≠ '+' ∧ c ≠ '-'

theorem opens_append (hne : word ≠ []) (hword : ∀ c ∈ word, isMark c = false)
    (rest : List Char) : Opens (word ++ rest) := by
  obtain ⟨c, cs, rfl⟩ := List.exists_cons_of_ne_nil hne
  have hc : isMark c = false := hword c List.mem_cons_self
  refine ⟨c, cs ++ rest, rfl, ?_, ?_, ?_⟩ <;>
  · rintro rfl
    revert hc
    decide

/-! ## Steps of the reader -/

section

variable {number : List Char → Float} {inner : List Char → Reading}

theorem readOperand?_of_follows (hword : ∀ c ∈ word, isMark c = false) (hrest : Follows rest) :
    readOperand? number inner (word ++ rest) = some (readWord number word, rest) := by
  obtain ⟨hleading, hafter⟩ := leadingWord_append hword fun c hc => (hrest c hc).1
  unfold readOperand?
  rw [hleading, hafter]
  cases rest with
  | nil => rfl
  | cons c cs =>
    obtain ⟨-, hparen, hbracket⟩ := hrest c rfl
    split
    · rename_i heq
      exact absurd (List.cons.inj heq).1 hparen
    · rename_i heq
      exact absurd (List.cons.inj heq).1 hbracket
    · rfl

theorem readOperand?_of_paren (hword : ∀ c ∈ word, isMark c = false) (cs : List Char) :
    readOperand? number inner (word ++ '(' :: cs) = readArguments? inner word cs := by
  have hmark : ∀ c ∈ ('(' :: cs).head?, isMark c = true := by
    rintro c ⟨⟩
    decide
  obtain ⟨hleading, hafter⟩ := leadingWord_append hword hmark
  rw [readOperand?, hleading, hafter]
  rfl

theorem readOperand?_of_bracket (hword : ∀ c ∈ word, isMark c = false) (cs : List Char) :
    readOperand? number inner (word ++ '[' :: cs) =
      some (.lengthOf (String.ofList word), cs.drop 2) := by
  have hmark : ∀ c ∈ ('[' :: cs).head?, isMark c = true := by
    rintro c ⟨⟩
    decide
  obtain ⟨hleading, hafter⟩ := leadingWord_append hword hmark
  rw [readOperand?, hleading, hafter]
  rfl

theorem readArguments?_of_one {cs : List Char} {first : Formula}
    (h : inner cs = some (first, ')' :: rest)) :
    readArguments? inner word cs =
      if word = [] then some (.parens first, rest)
      else (Function.ofKeyword? (String.ofList word)).map fun f => (.call f first, rest) := by
  simp [readArguments?, h]

theorem readArguments?_of_two {cs more : List Char} {first second : Formula}
    (hfirst : inner cs = some (first, ',' :: more))
    (hsecond : inner more = some (second, ')' :: rest)) :
    readArguments? inner word cs =
      (Operator.ofKeyword? (String.ofList word)).map fun op => (.binary op first second, rest) := by
  simp [readArguments?, hfirst, hsecond]

theorem readFormula?_of_opens {cs : List Char} (h : Opens cs) :
    readFormula? number inner cs = readInfix? number inner cs := by
  obtain ⟨c, rest, rfl, hquote, hplus, hminus⟩ := h
  unfold readFormula?
  split
  · rename_i heq
    exact absurd (List.cons.inj heq).1 hquote
  · rename_i heq
    exact absurd (List.cons.inj heq).1 hplus
  · rename_i heq
    exact absurd (List.cons.inj heq).1 hminus
  · rfl

/-- No operator follows an operand at the end of a formula. -/
theorem readInfix?_of_ends {cs : List Char} {left : Formula} (hrest : Ends rest)
    (h : readOperand? number inner cs = some (left, rest)) :
    readInfix? number inner cs = some (left, rest) := by
  rw [readInfix?, h]
  cases rest with
  | nil => rfl
  | cons c rest =>
    have hnone : infixOf? c = none := by
      rcases hrest c rfl with rfl | rfl <;> rfl
    simp [hnone]

end

/-! ## Formulas -/

namespace Formula

variable (number : List Char → Float)

/-- What is written for the formula is read back as an operand. -/
def ReadsOperand (f : Formula) : Prop :=
  ∀ levels rest, f.written.length ≤ levels → Follows rest →
    readOperand? number (read? number levels) (f.written ++ rest) = some (f.normalized, rest)

/-- What is written for the formula is read back as a formula. -/
def Reads (f : Formula) : Prop :=
  ∀ levels rest, f.written.length < levels → Ends rest →
    read? number levels (f.written ++ rest) = some (f.normalized, rest)

variable {number} {f left right : Formula}

/-- One level is enough for what is not inside of parentheses. -/
theorem Reads.of_readFormula?
    (h : ∀ levels rest, f.written.length ≤ levels → Ends rest →
      readFormula? number (read? number levels) (f.written ++ rest) = some (f.normalized, rest)) :
    f.Reads number := by
  intro levels rest hlevels hrest
  obtain ⟨n, rfl⟩ : ∃ n, levels = n + 1 := ⟨levels - 1, by omega⟩
  exact h n rest (Nat.lt_succ_iff.1 hlevels) hrest

/-! ### Operands -/

theorem readsOperand_number {x : Float} (hx : Decimal.IsUnsigned x)
    (hnumber : number (Decimal.text x).toList = x) : (Formula.number x).ReadsOperand number := by
  intro levels rest hlevels hrest
  have hword := isMark_of_mem_text hx
  obtain ⟨c, cs, hcs⟩ := List.exists_cons_of_ne_nil hx.text_ne_nil
  have hhead : (Decimal.text x).toList.head?.any startsNumber = true := by
    have hc : c.isDigit = true ∨ c = '.' := hx.isDigit_or_point (hcs ▸ List.mem_cons_self)
    rw [hcs]
    simpa [startsNumber] using hc
  rw [written, readOperand?_of_follows hword hrest, normalized, readWord, if_pos hhead, hnumber]

theorem readsOperand_name {raw : String} (hraw : isWord raw = true) :
    (Formula.name raw).ReadsOperand number := by
  intro levels rest hlevels hrest
  obtain ⟨c, cs, hcs, hc, hword⟩ := normalize_of_isWord hraw
  have hhead : ¬(c :: cs).head?.any startsNumber = true := by simp [hc]
  rw [written, hcs, readOperand?_of_follows hword hrest, normalized, readWord, if_neg hhead, ← hcs,
    String.ofList_toList]

theorem readsOperand_lengthOf {raw : String} (hraw : isWord raw = true) :
    (Formula.lengthOf raw).ReadsOperand number := by
  intro levels rest hlevels hrest
  obtain ⟨c, cs, hcs, -, hword⟩ := normalize_of_isWord hraw
  rw [written, List.append_assoc, hcs]
  show readOperand? _ _ ((c :: cs) ++ '[' :: ('L' :: ']' :: rest)) = _
  rw [readOperand?_of_bracket hword, ← hcs, String.ofList_toList]
  rfl

theorem readsOperand_parens (h : f.Reads number) : (Formula.parens f).ReadsOperand number := by
  intro levels rest hlevels hrest
  have hlength : f.written.length < levels := by
    rw [written, List.length_cons, List.length_append] at hlevels
    omega
  have hinner := h levels (')' :: rest) hlength (ends_cons (.inr rfl) rest)
  show readOperand? number _ ([] ++ '(' :: ((f.written ++ [')']) ++ rest)) = _
  rw [readOperand?_of_paren (by simp), List.append_assoc, List.singleton_append,
    readArguments?_of_one hinner]
  rfl

theorem readsOperand_call {function : Function} (h : f.Reads number) :
    (Formula.call function f).ReadsOperand number := by
  intro levels rest hlevels hrest
  have hlength : f.written.length < levels := by
    rw [written, List.length_append, List.length_cons, List.length_append] at hlevels
    omega
  have hinner := h levels (')' :: rest) hlength (ends_cons (.inr rfl) rest)
  rw [written, List.append_assoc, List.cons_append,
    readOperand?_of_paren (isMark_of_mem_keyword function), List.append_assoc,
    List.singleton_append, readArguments?_of_one hinner, if_neg (keyword_ne_nil function),
    String.ofList_toList,
    Function.ofKeyword?_keyword]
  rfl

theorem readsOperand_binary {op : Operator} (hop : op.symbol? = none) (hleft : left.Reads number)
    (hright : right.Reads number) : (Formula.binary op left right).ReadsOperand number := by
  intro levels rest hlevels hrest
  have hwritten : (Formula.binary op left right).written =
      op.keyword.toList ++ '(' :: (left.written ++ ',' :: (right.written ++ [')'])) := by
    rw [written, hop]
  rw [hwritten, List.length_append, List.length_cons, List.length_append, List.length_cons,
    List.length_append] at hlevels
  have hfirst := hleft levels (',' :: (right.written ++ ')' :: rest)) (by omega)
    (ends_cons (.inl rfl) _)
  have hsecond := hright levels (')' :: rest) (by omega) (ends_cons (.inr rfl) rest)
  have hassoc : (left.written ++ ',' :: (right.written ++ [')'])) ++ rest =
      left.written ++ ',' :: (right.written ++ ')' :: rest) := by
    simp
  rw [hwritten, List.append_assoc, List.cons_append, hassoc,
    readOperand?_of_paren (isMark_of_mem_operatorKeyword op), readArguments?_of_two hfirst hsecond,
    String.ofList_toList, Operator.ofKeyword?_keyword]
  rfl

/-- What is written for an operand starts with neither a quote nor a sign. -/
theorem opens_of_isOperand (hop : f.isOperand = true) (hf : f.isWellBracketed = true)
    (rest : List Char) : Opens (f.written ++ rest) := by
  cases f with
  | number x =>
    have hx : Decimal.IsUnsigned x := of_decide_eq_true hf
    exact opens_append hx.text_ne_nil (isMark_of_mem_text hx) rest
  | name raw =>
    obtain ⟨c, cs, hcs, -, hword⟩ := normalize_of_isWord hf
    rw [written, hcs]
    exact opens_append (List.cons_ne_nil c cs) hword rest
  | lengthOf raw =>
    obtain ⟨c, cs, hcs, -, hword⟩ := normalize_of_isWord hf
    rw [written, hcs, List.append_assoc]
    exact opens_append (List.cons_ne_nil c cs) hword _
  | parens inner => exact ⟨_, _, rfl, by decide, by decide, by decide⟩
  | call function argument =>
    rw [written, List.append_assoc]
    exact opens_append (keyword_ne_nil function) (isMark_of_mem_keyword function) _
  | binary op left right =>
    have hnone : op.symbol? = none := Option.isNone_iff_eq_none.1 hop
    have hne : op.keyword.toList ≠ [] := by cases op <;> decide
    rw [written, hnone]
    dsimp only
    rw [List.append_assoc]
    exact opens_append hne (isMark_of_mem_operatorKeyword op) _
  | text | signed => cases hop

/-! ### Formulas of other forms -/

theorem reads_of_isOperand (hop : f.isOperand = true) (hf : f.isWellBracketed = true)
    (h : f.ReadsOperand number) : f.Reads number := by
  refine .of_readFormula? fun levels rest hlevels hrest => ?_
  rw [readFormula?_of_opens (opens_of_isOperand hop hf rest)]
  exact readInfix?_of_ends hrest (h levels rest hlevels hrest.follows)

theorem reads_text {content : String} (h : '"' ∉ content.toList) :
    (Formula.text content).Reads number := by
  refine .of_readFormula? fun levels rest hlevels hrest => ?_
  have hall : ∀ c ∈ content.toList, decide (c ≠ '"') = true := by
    intro c hc
    exact decide_eq_true fun heq => h (heq ▸ hc)
  have hassoc : (content.toList ++ ['"']) ++ rest = content.toList ++ '"' :: rest := by simp
  show some (Formula.text (String.ofList (List.takeWhile _ ((content.toList ++ ['"']) ++ rest))),
    (List.dropWhile _ ((content.toList ++ ['"']) ++ rest)).drop 1) = _
  rw [hassoc, List.takeWhile_append_of_pos hall, List.dropWhile_append_of_pos hall]
  simp [normalized]

theorem reads_signed {sign : Sign} (h : f.ReadsOperand number) :
    (Formula.signed sign f).Reads number := by
  refine .of_readFormula? fun levels rest hlevels hrest => ?_
  have hlength : f.written.length ≤ levels := by
    rw [written, List.length_append] at hlevels
    omega
  have hoperand := h levels rest hlength hrest.follows
  cases sign with
  | plus =>
    show (readOperand? number _ (f.written ++ rest)).map _ = _
    rw [hoperand]
    rfl
  | minus =>
    show (readOperand? number _ (f.written ++ rest)).map _ = _
    rw [hoperand]
    rfl

theorem reads_binary {op : Operator} {symbol : String} (hsymbol : op.symbol? = some symbol)
    (hop : left.isOperand = true) (hwell : left.isWellBracketed = true)
    (hleft : left.ReadsOperand number) (hright : right.ReadsOperand number) :
    (Formula.binary op left right).Reads number := by
  refine .of_readFormula? fun levels rest hlevels hrest => ?_
  obtain ⟨c, hc, hmarked, hmark, hparen, hbracket⟩ := Operator.exists_mark_of_symbol? hsymbol
  have hwritten : (Formula.binary op left right).written =
      left.written ++ c :: right.written := by
    rw [written, hsymbol]
    dsimp only
    rw [hc, List.singleton_append]
  rw [hwritten, List.length_append, List.length_cons] at hlevels
  have hmiddle : Follows (c :: (right.written ++ rest)) := by
    rintro d ⟨⟩
    exact ⟨hmark, hparen, hbracket⟩
  have hfirst := hleft levels (c :: (right.written ++ rest)) (by omega) hmiddle
  have hsecond := hright levels rest (by omega) hrest.follows
  rw [hwritten, List.append_assoc, List.cons_append,
    readFormula?_of_opens (opens_of_isOperand hop hwell _), readInfix?, hfirst]
  dsimp only
  rw [hmarked]
  dsimp only
  rw [hsecond]
  rfl

/-! ### All formulas -/

/-- What is written for a well-bracketed formula is read back, where an operand is needed as well if
the formula is one. -/
theorem readsOperand_and_reads
    (hnumber : ∀ x, Decimal.IsUnsigned x → number (Decimal.text x).toList = x) (f : Formula)
    (hf : f.isWellBracketed = true) :
    (f.isOperand = true → f.ReadsOperand number) ∧ f.Reads number := by
  -- an operand is read back as a formula as well
  have hboth {f : Formula} (hop : f.isOperand = true) (hf : f.isWellBracketed = true)
      (h : f.ReadsOperand number) : (f.isOperand = true → f.ReadsOperand number) ∧ f.Reads number :=
    ⟨fun _ => h, reads_of_isOperand hop hf h⟩
  induction f with
  | number x =>
    have hx : Decimal.IsUnsigned x := of_decide_eq_true hf
    exact hboth rfl hf (readsOperand_number hx (hnumber x hx))
  | text content =>
    refine ⟨nofun, reads_text ?_⟩
    simpa [isWellBracketed] using hf
  | name raw => exact hboth rfl hf (readsOperand_name hf)
  | lengthOf raw => exact hboth rfl hf (readsOperand_lengthOf hf)
  | parens inner ih => exact hboth rfl hf (readsOperand_parens (ih hf).2)
  | signed sign operand ih =>
    rw [isWellBracketed, Bool.and_eq_true] at hf
    exact ⟨nofun, reads_signed ((ih hf.2).1 hf.1)⟩
  | binary op left right ihl ihr =>
    have hparts := hf
    simp only [isWellBracketed, Bool.and_eq_true, Bool.or_eq_true] at hparts
    obtain ⟨hoperands, hleft, hright⟩ := hparts
    cases hsymbol : op.symbol? with
    | none =>
      have hop : (binary op left right).isOperand = true := by rw [isOperand, hsymbol]; rfl
      exact hboth hop hf (readsOperand_binary hsymbol (ihl hleft).2 (ihr hright).2)
    | some symbol =>
      rw [hsymbol] at hoperands
      obtain ⟨hopl, hopr⟩ := hoperands.resolve_left nofun
      refine ⟨fun hop => ?_, reads_binary hsymbol hopl hleft ((ihl hleft).1 hopl)
        ((ihr hright).1 hopr)⟩
      rw [isOperand, hsymbol] at hop
      cases hop
  | call function argument ih => exact hboth rfl hf (readsOperand_call (ih hf).2)

/-- What is written for a well-bracketed formula is read back as its normal form. -/
theorem read?_written (hnumber : ∀ x, Decimal.IsUnsigned x → number (Decimal.text x).toList = x)
    (hf : f.isWellBracketed = true) {levels : Nat} (hlevels : f.written.length < levels) :
    read? number levels f.written = some (f.normalized, []) := by
  have h := (readsOperand_and_reads hnumber f hf).2 levels [] hlevels nofun
  rwa [List.append_nil] at h

/-- Numbers can be read back from their texts. -/
theorem exists_number : ∃ number : List Char → Float,
    ∀ x, Decimal.IsUnsigned x → number (Decimal.text x).toList = x := by
  have hinj : Set.InjOn (fun x => (Decimal.text x).toList) {x | Decimal.IsUnsigned x} :=
    fun x hx y hy h => Decimal.text_inj hx hy (String.toList_inj.1 h)
  exact ⟨_, fun x hx => hinj.leftInvOn_invFunOn hx⟩

/-- Well-bracketed formulas for which the same is written are the same up to the spelling of their
names. -/
theorem normalized_eq_of_written_eq {f g : Formula} (hf : f.isWellBracketed = true)
    (hg : g.isWellBracketed = true) (h : f.written = g.written) : f.normalized = g.normalized := by
  obtain ⟨number, hnumber⟩ := exists_number
  have hreadf := read?_written hnumber hf (Nat.lt_succ_self _)
  have hreadg := read?_written hnumber hg (Nat.lt_succ_self _)
  rw [h, hreadg] at hreadf
  exact (Prod.mk.inj (Option.some.inj hreadf)).1.symm

end Formula

end Beamline.Expr
