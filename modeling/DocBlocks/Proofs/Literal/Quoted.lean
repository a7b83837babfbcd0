import DocBlocks.Proofs.Literal.Integer
import DocBlocks.Proofs.Text.Bytes

/-!
# Double-quoted literals

`decodeDoubleQuoted?_spelled`: the inside of a double-quoted literal that is made up of characters
without a backslash and of well-formed escapes stands for what these pieces stand for, one behind
the other. Pieces stand for bytes. What all of them together stand for is a text exactly if the
bytes are those of one, wherever the pieces meet: two escapes for one byte each can add up to a
character, and one of them alone is none. Every text is written by pieces (`Piece.ofChar`).

What carries the proof is that a piece is read without a look at what stands behind it
(`unescapeDouble_chars_append`), so there is one case for each kind of piece and an induction over
the list of them.
-/

namespace DocBlocks

/-! ### Literals -/

/-- What can stand in front of the quotes of a literal: nothing, or the mark of a byte string. -/
inductive ByteMark where
  | absent
  | small
  | capital

/-- The letter of a mark. -/
def ByteMark.chars : ByteMark → List Char
  | absent => []
  | small => ['b']
  | capital => ['B']

/-- A literal: its inside between two quotes. -/
def quotedLiteral (mark : ByteMark) (quote : Char) (inside : List Char) : String :=
  String.ofList (mark.chars ++ quote :: (inside ++ [quote]))

/-- **The inside of a literal is what is left of it without mark and quotes**, also if there are
quotes in the inside. -/
theorem unquote_quotedLiteral (mark : ByteMark) {quote : Char} (hsmall : quote ≠ 'b')
    (hcapital : quote ≠ 'B') (inside : List Char) :
    unquote quote (quotedLiteral mark quote inside).toList = inside := by
  -- without a mark the literal begins with its quote, which must not be taken for one
  have hmark : dropByteMark (mark.chars ++ quote :: (inside ++ [quote])) =
      quote :: (inside ++ [quote]) := by
    cases mark with
    | absent =>
      show dropByteMark (quote :: (inside ++ [quote])) = _
      unfold dropByteMark
      split
      · next heq => exact absurd (List.cons.inj heq).1 hsmall
      · next heq => exact absurd (List.cons.inj heq).1 hcapital
      · rfl
    | small => rfl
    | capital => rfl
  rw [unquote, quotedLiteral, String.toList_ofList, hmark]
  simp [betweenQuotes]

/-! ### Bytes of texts -/

theorem textOfBytes?_eq (bytes : List UInt8) :
    textOfBytes? bytes = String.fromUTF8? bytes.toByteArray := by
  rw [textOfBytes?, ← List.data_toByteArray]

/-- **Bytes have a text exactly if they are the bytes of one.** -/
theorem textOfBytes?_eq_some {bytes : List UInt8} {s : String} :
    textOfBytes? bytes = some s ↔ s.toUTF8 = bytes.toByteArray := by
  rw [textOfBytes?_eq, String.fromUTF8?]
  constructor
  · intro h
    split at h
    · obtain rfl := Option.some.inj h
      rfl
    · cases h
  · intro h
    have hvalid : bytes.toByteArray.IsValidUTF8 := h ▸ s.isValidUTF8
    rw [dif_pos hvalid, Option.some.injEq, ← String.toByteArray_inj]
    exact h.symm

theorem textOfBytes?_eq_none {bytes : List UInt8} :
    textOfBytes? bytes = none ↔ ¬ bytes.toByteArray.IsValidUTF8 := by
  rw [textOfBytes?_eq, String.fromUTF8?]
  split <;> simp_all

theorem textOfBytes?_bytesOf (cs : List Char) :
    textOfBytes? (bytesOf cs) = some (String.ofList cs) := by
  rw [textOfBytes?_eq_some, toUTF8_eq_bytesOf, String.toList_ofList]

/-! ### Reading step by step -/

theorem unescapeDouble_nil : unescapeDouble [] = [] := by
  rw [unescapeDouble]

theorem unescapeDouble_cons {c : Char} (h : c ≠ '\\') (cs : List Char) :
    unescapeDouble (c :: cs) = String.utf8EncodeChar c ++ unescapeDouble cs := by
  rw [unescapeDouble, if_neg h]

theorem unescapeDouble_backslash (cs : List Char) :
    unescapeDouble ('\\' :: cs) = (escapeAt cs).1 ++ unescapeDouble (escapeAt cs).2 := by
  rw [unescapeDouble, if_pos rfl]

theorem escapeAt_hexadecimal (cs : List Char) : escapeAt ('x' :: cs) = hexEscape cs := rfl

theorem escapeAt_scalar (cs : List Char) : escapeAt ('u' :: cs) = scalarEscape cs := rfl

theorem escapeAt_octal {c : Char} (h : isOctalDigit c = true) (cs : List Char) :
    escapeAt (c :: cs) = octalEscape (c :: cs) := by
  have hplain : plainEscape? c = none := by
    unfold plainEscape?
    split <;> first | rfl | exact absurd h (by decide)
  have hx : (c == 'x') = false := by
    rw [beq_eq_false_iff_ne]
    rintro rfl
    exact absurd h (by decide)
  have hu : (c == 'u') = false := by
    rw [beq_eq_false_iff_ne]
    rintro rfl
    exact absurd h (by decide)
  simp [escapeAt, hplain, hx, hu, h]

/-- What stands between braces is read up to the closing one. -/
theorem scalarEscape_closed {cs : List Char} (h : '}' ∉ cs) (rest : List Char) :
    scalarEscape ('{' :: (cs ++ '}' :: rest)) =
      ((scalarOfHex? cs).elim (bytesOf ('\\' :: 'u' :: '{' :: (cs ++ ['}'])))
        fun c => bytesOf [c], rest) := by
  have htake := takeWhile_until h rest
  have hdrop : (cs ++ '}' :: rest).drop (cs.length + 1) = rest := by
    rw [List.append_cons, List.drop_left' (by simp)]
  rw [scalarEscape]
  simp only [htake, hdrop]
  cases scalarOfHex? cs <;> rfl

/-- As many digits as there may be are taken, whatever stands behind them. -/
theorem takeEscapeDigits_append {isDigit : Char → Bool} {ds : List Char}
    (h : ∀ d ∈ ds, isDigit d = true) (rest : List Char) :
    takeEscapeDigits isDigit ds.length (ds ++ rest) = (ds, rest) := by
  have htake : ((ds ++ rest).take ds.length).takeWhile isDigit = ds := by
    rw [List.take_left, List.takeWhile_eq_self_iff]
    exact h
  rw [takeEscapeDigits, htake, List.drop_left]

/-! ### Digits -/

/-- Whether a character is a digit in some base, as a letter in either case. -/
def HasDigit (base : Nat) (c : Char) (d : Nat) : Prop :=
  d < base ∧ (c = Nat.digitChar d ∨ c = (Nat.digitChar d).toUpper)

namespace HasDigit

variable {base d : Nat} {c : Char}

/-- What holds of the characters for the digits of a base holds of a digit. -/
theorem elim (h : HasDigit base c d) {P : Char → Nat → Prop}
    (hP : ∀ e < base, P (Nat.digitChar e) e ∧ P (Nat.digitChar e).toUpper e) : P c d := by
  obtain ⟨hlt, rfl | rfl⟩ := h
  · exact (hP d hlt).1
  · exact (hP d hlt).2

theorem anyDigitValue?_eq (h : HasDigit base c d) (hbase : base ≤ 16) :
    anyDigitValue? base c = some d := by
  have hwide : HasDigit 16 c d := ⟨h.1.trans_le hbase, h.2⟩
  have hvalue : anyDigitValue? 16 c = some d :=
    hwide.elim (P := fun c d => anyDigitValue? 16 c = some d) (by decide)
  simp only [anyDigitValue?, Option.filter_eq_some_iff] at hvalue ⊢
  exact ⟨hvalue.1, by simpa using h.1⟩

end HasDigit

theorem forall_lt_of_hasDigit {base : Nat} {cs : List Char} {ds : List Nat}
    (h : List.Forall₂ (HasDigit base) cs ds) : ∀ d ∈ ds, d < base := by
  induction h with
  | nil => simp
  | cons hc _ ih => exact List.forall_mem_cons.2 ⟨hc.1, ih⟩

/-- **Digits in either case are read as the number that they denote.** -/
theorem readDigits?_of_hasDigit {base : Nat} (hbase : base ≤ 16) {cs : List Char} {ds : List Nat}
    (h : List.Forall₂ (HasDigit base) cs ds) (hne : cs ≠ []) :
    readDigits? base cs = some (Nat.ofDigits base ds.reverse) := by
  have hds : ds ≠ [] := by
    rintro rfl
    exact hne (List.forall₂_nil_right_iff.1 h)
  have hlt := forall_lt_of_hasDigit h
  -- the case of a letter makes no difference at any step
  have hsame : ∀ n, cs.foldlM (fun n c => (anyDigitValue? base c).map fun d => base * n + d) n =
      (ds.map Nat.digitChar).foldlM
        (fun n c => (anyDigitValue? base c).map fun d => base * n + d) n := by
    clear hne hds
    induction h with
    | nil => exact fun _ => rfl
    | @cons c d cs ds hc _ ih =>
      intro n
      rw [List.forall_mem_cons] at hlt
      rw [List.map_cons, List.foldlM_cons, List.foldlM_cons, hc.anyDigitValue?_eq hbase,
        anyDigitValue?_digitChar hbase hlt.1]
      exact ih hlt.2 _
  rw [← readDigits?_digitChar hbase hlt hds, readDigits?, readDigits?, if_neg (by simpa using hne),
    if_neg (by simpa using hds), hsame]

theorem brace_not_mem_of_hasDigit {cs : List Char} {ds : List Nat}
    (h : List.Forall₂ (HasDigit 16) cs ds) : '}' ∉ cs := by
  induction h with
  | nil => exact List.not_mem_nil
  | cons hc _ ih =>
    have hne : _ ≠ '}' := hc.elim (P := fun c _ => c ≠ '}') (by decide)
    exact List.not_mem_cons_of_ne_of_not_mem hne.symm ih

/-- The character with a number in hexadecimal digits. -/
theorem scalarOfHex?_of_hasDigit {cs : List Char} {ds : List Nat} {c : Char}
    (h : List.Forall₂ (HasDigit 16) cs ds) (hne : cs ≠ [])
    (hnumber : Nat.ofDigits 16 ds.reverse = c.toNat) : scalarOfHex? cs = some c := by
  have hread := readDigits?_of_hasDigit (by decide) h hne
  cases h with
  | nil => exact absurd rfl hne
  | @cons c' d cs ds hc htail =>
    have hplus : c' ≠ '+' := hc.elim (P := fun c _ => c ≠ '+') (by decide)
    unfold scalarOfHex?
    dsimp only
    split
    · next heq => exact absurd (List.cons.inj heq).1 hplus
    · have hvalid : c.toNat.isValidChar := c.valid
      rw [hread, hnumber, Option.bind_some, if_pos hvalid, Char.ofNat_toNat]

/-! ### Pieces -/

/-- The letters of the escapes for one character each, with the character. -/
def escapeLetters : List (Char × Char) :=
  [('n', '\n'), ('t', '\t'), ('r', '\r'), ('v', '\x0b'), ('e', '\x1b'), ('f', '\x0c'), ('\\', '\\'),
    ('$', '$'), ('"', '"')]

/-- A well-formed escape: what stands behind the backslash, and the bytes that are meant. A byte is
given by two hexadecimal or three octal digits, of which the low eight bits count, and a character
by the hexadecimal digits of its number in braces. -/
inductive Escape : List Char → List UInt8 → Prop
  | letter {l c : Char} (mem : (l, c) ∈ escapeLetters) : Escape [l] (String.utf8EncodeChar c)
  | hexadecimal {c₁ c₂ : Char} {d₁ d₂ : Nat} (first : HasDigit 16 c₁ d₁)
      (second : HasDigit 16 c₂ d₂) : Escape ['x', c₁, c₂] [UInt8.ofNat (16 * d₁ + d₂)]
  | octal {c₁ c₂ c₃ : Char} {d₁ d₂ d₃ : Nat} (first : HasDigit 8 c₁ d₁) (second : HasDigit 8 c₂ d₂)
      (third : HasDigit 8 c₃ d₃) : Escape [c₁, c₂, c₃] [UInt8.ofNat (64 * d₁ + 8 * d₂ + d₃)]
  | scalar {cs : List Char} {ds : List Nat} {c : Char} (digits : List.Forall₂ (HasDigit 16) cs ds)
      (nonempty : cs ≠ []) (number : Nat.ofDigits 16 ds.reverse = c.toNat) :
      Escape ('u' :: '{' :: (cs ++ ['}'])) (String.utf8EncodeChar c)

/-- What a piece of the inside of a double-quoted literal is written like, and the bytes that it
stands for: a character without a backslash, or a backslash with an escape. -/
inductive Spelled : List Char → List UInt8 → Prop
  | raw {c : Char} (ne : c ≠ '\\') : Spelled [c] (String.utf8EncodeChar c)
  | escape {cs : List Char} {bytes : List UInt8} (escape : Escape cs bytes) :
      Spelled ('\\' :: cs) bytes

/-- A piece of the inside of a double-quoted literal. -/
structure Piece where
  chars : List Char
  bytes : List UInt8
  spelled : Spelled chars bytes

theorem escapeAt_letter {l c : Char} (h : (l, c) ∈ escapeLetters) (rest : List Char) :
    escapeAt (l :: rest) = (String.utf8EncodeChar c, rest) := by
  have hplain : ∀ x ∈ escapeLetters, (plainEscape? x.1).map (fun b => [b]) =
      some (String.utf8EncodeChar x.2) := by decide
  obtain ⟨b, hb, hbytes⟩ := Option.map_eq_some_iff.1 (hplain _ h)
  simp only [escapeAt, hb, hbytes]

/-- **An escape is read without a look at what stands behind it.** -/
theorem escapeAt_of_escape {cs : List Char} {bytes : List UInt8} (h : Escape cs bytes)
    (rest : List Char) : escapeAt (cs ++ rest) = (bytes, rest) := by
  cases h with
  | letter mem => exact escapeAt_letter mem rest
  | @hexadecimal c₁ c₂ d₁ d₂ first second =>
    have hhex : ∀ c ∈ [c₁, c₂], isHexDigit c = true := by
      have hdigit {c : Char} {d : Nat} (h : HasDigit 16 c d) : isHexDigit c = true :=
        h.elim (P := fun c _ => isHexDigit c = true) (by decide)
      simp [hdigit first, hdigit second]
    have hread : readDigits? 16 [c₁, c₂] = some (16 * d₁ + d₂) := by
      rw [readDigits?_of_hasDigit (by decide) (.cons first (.cons second .nil)) (by simp)]
      simp [Nat.ofDigits_cons]
      ring
    have htake : takeEscapeDigits isHexDigit 2 (c₁ :: c₂ :: rest) = ([c₁, c₂], rest) :=
      takeEscapeDigits_append hhex rest
    show escapeAt ('x' :: c₁ :: c₂ :: rest) = _
    rw [escapeAt_hexadecimal, hexEscape, htake]
    simp [hread]
  | @octal c₁ c₂ c₃ d₁ d₂ d₃ first second third =>
    have hdigit {c : Char} {d : Nat} (h : HasDigit 8 c d) : isOctalDigit c = true :=
      h.elim (P := fun c _ => isOctalDigit c = true) (by decide)
    have hoctal : ∀ c ∈ [c₁, c₂, c₃], isOctalDigit c = true := by
      simp [hdigit first, hdigit second, hdigit third]
    have hread : readDigits? 8 [c₁, c₂, c₃] = some (64 * d₁ + 8 * d₂ + d₃) := by
      rw [readDigits?_of_hasDigit (by decide) (.cons first (.cons second (.cons third .nil)))
        (by simp)]
      simp [Nat.ofDigits_cons]
      ring
    have htake : takeEscapeDigits isOctalDigit 3 (c₁ :: c₂ :: c₃ :: rest) = ([c₁, c₂, c₃], rest) :=
      takeEscapeDigits_append hoctal rest
    show escapeAt (c₁ :: c₂ :: c₃ :: rest) = _
    rw [escapeAt_octal (hdigit first), octalEscape, htake]
    simp [hread]
  | @scalar cs ds c digits nonempty number =>
    show escapeAt ('u' :: '{' :: ((cs ++ ['}']) ++ rest)) = _
    rw [escapeAt_scalar, List.append_assoc, List.singleton_append,
      scalarEscape_closed (brace_not_mem_of_hasDigit digits),
      scalarOfHex?_of_hasDigit digits nonempty number, Option.elim_some]
    simp [bytesOf]

theorem unescapeDouble_chars_append (p : Piece) (rest : List Char) :
    unescapeDouble (p.chars ++ rest) = p.bytes ++ unescapeDouble rest := by
  obtain ⟨chars, bytes, hspelled⟩ := p
  cases hspelled with
  | raw ne => exact unescapeDouble_cons ne rest
  | @escape cs _ escape =>
    show unescapeDouble ('\\' :: (cs ++ rest)) = _
    rw [unescapeDouble_backslash, escapeAt_of_escape escape]

/-- **What pieces stand for is what each of them stands for, one behind the other.** -/
theorem unescapeDouble_flatMap_chars (pieces : List Piece) :
    unescapeDouble (pieces.flatMap Piece.chars) = pieces.flatMap Piece.bytes := by
  induction pieces with
  | nil => exact unescapeDouble_nil
  | cons p pieces ih =>
    rw [List.flatMap_cons, unescapeDouble_chars_append, ih, List.flatMap_cons]

/-! ### Writing a text -/

theorem ne_backslash_of_find? {c : Char} (h : escapeLetters.find? (·.2 == c) = none) :
    c ≠ '\\' := by
  -- the backslash has a letter, so none is left to stand for itself
  rintro rfl
  exact absurd h (by decide)

/-- The piece that a character is written by: its escape if there is a letter for it, and else the
character itself. -/
def Piece.ofChar (c : Char) : Piece :=
  match h : escapeLetters.find? (·.2 == c) with
  | some x =>
    ⟨['\\', x.1], String.utf8EncodeChar x.2, .escape (.letter (List.mem_of_find?_eq_some h))⟩
  | none => ⟨[c], String.utf8EncodeChar c, .raw (ne_backslash_of_find? h)⟩

theorem Piece.bytes_ofChar (c : Char) : (Piece.ofChar c).bytes = String.utf8EncodeChar c := by
  unfold Piece.ofChar
  split
  · next x hx =>
    have heq : x.2 = c := by simpa using List.find?_some hx
    exact congrArg String.utf8EncodeChar heq
  · rfl

/-- **The pieces of the characters of a text stand for the text.** -/
theorem flatMap_bytes_ofChar (cs : List Char) :
    (cs.map Piece.ofChar).flatMap Piece.bytes = bytesOf cs := by
  rw [bytesOf, List.flatMap_map]
  congr 1
  exact funext Piece.bytes_ofChar

/-! ### Literals of pieces -/

theorem decodeDoubleQuoted?_quotedLiteral (mark : ByteMark) (inside : List Char) :
    decodeDoubleQuoted? (quotedLiteral mark '"' inside) = textOfBytes? (unescapeDouble inside) := by
  rw [decodeDoubleQuoted?, unquote_quotedLiteral mark (by decide) (by decide)]

/-- **Literals of well-formed pieces are read as what the pieces stand for.** The inside of a
literal that is made up of characters and well-formed escapes stands for the text with the bytes of
all of them, if these are the bytes of a text, and for none otherwise. Every text is the one that
its characters, each written by a piece, stand for. -/
theorem decodeDoubleQuoted?_spelled (mark : ByteMark) :
    (∀ pieces : List Piece,
      (∀ s, decodeDoubleQuoted? (quotedLiteral mark '"' (pieces.flatMap Piece.chars)) = some s ↔
        s.toUTF8 = (pieces.flatMap Piece.bytes).toByteArray) ∧
      (decodeDoubleQuoted? (quotedLiteral mark '"' (pieces.flatMap Piece.chars)) = none ↔
        ¬ (pieces.flatMap Piece.bytes).toByteArray.IsValidUTF8)) ∧
      ∀ s : String, decodeDoubleQuoted?
        (quotedLiteral mark '"' ((s.toList.map Piece.ofChar).flatMap Piece.chars)) = some s := by
  have hdecode (pieces : List Piece) :
      decodeDoubleQuoted? (quotedLiteral mark '"' (pieces.flatMap Piece.chars)) =
        textOfBytes? (pieces.flatMap Piece.bytes) := by
    rw [decodeDoubleQuoted?_quotedLiteral, unescapeDouble_flatMap_chars]
  refine ⟨fun pieces => ⟨fun s => ?_, ?_⟩, fun s => ?_⟩
  · rw [hdecode, textOfBytes?_eq_some]
  · rw [hdecode, textOfBytes?_eq_none]
  · rw [hdecode, flatMap_bytes_ofChar, textOfBytes?_bytesOf, String.ofList_toList]

/-- Two escapes for one byte each add up to a character, and one of them alone is none. -/
example : decodeDoubleQuoted? "\"\\xC3\\xA9\"" = some "\u00e9" ∧
    decodeDoubleQuoted? "\"\\xC3\"" = none := by
  decide +kernel

end DocBlocks
