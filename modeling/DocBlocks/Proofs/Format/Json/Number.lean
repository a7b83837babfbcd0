import DocBlocks.Proofs.Format.Json.Reader
import DocBlocks.Proofs.Number.Exact

/-!
# Numbers of JSON

`gives_number_int`: an integer that fits 64 bits is read back. `gives_foundAhead_float`: a
floating-point number is read back wherever it stands if it is read back where it stands alone
(`Keeps`). The reader does not settle a number by its nearest neighbour but by one multiplication or
division of rounded powers of ten, so not every number is kept (`not_keeps_finite`); what is not
finite never is (`not_keeps_infinite`).

`keeps_of_isShort`: numbers that are written with digits below `2 ^ 53` and a scale of no more than
twenty-two are kept. Neither the digits nor the power of ten are rounded then, so the one operation
gives the number that the decimal is nearest to, and the shortest decimal of a number is nearest to
it.
-/

namespace DocBlocks.Json.Read

section

variable {α β : Type} {depth : Nat} {text rest : List Char}

/-! ### Digits -/

theorem gives_digitRun {ds : List Char} (h : ∀ c ∈ ds, c.isDigit = true)
    (hrest : rest.head?.any Char.isDigit = false) :
    Gives digitRun depth (ds ++ rest) ds rest := by
  refine leads_get_bind fun passed => ?_
  simp only [takeWhile_append_eq h rest hrest]
  exact Gives.bind (gives_skipBytes ..) (gives_pure ..)

/-- Digits that fit 64 bits are all taken. -/
theorem addDigits_eq {n count : Nat} {ds : List Char}
    (h : n * 10 ^ ds.length + decimalValue ds ≤ largestWhole) :
    addDigits n count ds = (n * 10 ^ ds.length + decimalValue ds, count + ds.length) := by
  induction ds generalizing n count with
  | nil => simp [addDigits, decimalValue_nil]
  | cons d ds ih =>
    have hsplit : n * 10 ^ (d :: ds).length + decimalValue (d :: ds) =
        (10 * n + digitValue d) * 10 ^ ds.length + decimalValue ds := by
      rw [decimalValue_cons, List.length_cons, pow_succ]
      ring
    rw [hsplit] at h ⊢
    have hfits : ¬largestWhole < 10 * n + digitValue d := by
      have : 10 * n + digitValue d ≤ (10 * n + digitValue d) * 10 ^ ds.length :=
        Nat.le_mul_of_pos_right _ (by positivity)
      omega
    rw [addDigits, if_neg hfits, ih h, List.length_cons]
    congr 1
    omega

/-- The whole digits of a number are read up to what follows them. -/
theorem leads_number {front : List Char} (hne : front ≠ [])
    (hdigits : ∀ c ∈ front, c.isDigit = true)
    (hunpadded : front.head? ≠ some '0' ∨ front = ['0'])
    (hfits : decimalValue front ≤ largestWhole) (hrest : rest.head?.any Char.isDigit = false)
    (negative : Bool) :
    Leads (number negative) depth (front ++ rest) (numberEnd negative (decimalValue front) 0)
      rest := by
  obtain ⟨d, ds, rfl⟩ := List.exists_cons_of_ne_nil hne
  rw [List.forall_mem_cons] at hdigits
  have hfurther : Gives (furtherDigits d) depth (ds ++ rest) ds rest := by
    unfold furtherDigits
    split
    · rename_i hd
      obtain rfl : ds = [] := by
        rcases hunpadded with h | h
        · exact absurd (by rw [hd]; rfl) h
        · exact (List.cons.inj h).2
      refine Gives.bind (gives_peek ..) ?_
      rw [List.nil_append, hrest]
      exact gives_pure ..
    · exact gives_digitRun hdigits.2 hrest
  have hadd : addDigits (digitValue d) 0 ds = (decimalValue (d :: ds), ds.length) := by
    rw [decimalValue_cons] at hfits ⊢
    rw [addDigits_eq hfits, Nat.zero_add]
  refine Gives.bind (gives_peek ..) ?_
  simp only [List.cons_append, List.head?_cons, hdigits.1, Bool.not_true, Bool.false_eq_true,
    if_false]
  refine Gives.bind (gives_eat ..) (Gives.bind hfurther ?_)
  simp only [hadd, Nat.sub_self]
  exact .refl ..

/-! ### Signs -/

/-- A number with its sign: the sign leads to the digits. -/
theorem exists_leads_signedNumber (negative : Bool) {d : Char} (hd : d.isDigit = true)
    (ds : List Char) :
    ∃ c cs, (if negative then ['-'] else []) ++ d :: ds = c :: cs ∧ opensNumber c = true ∧
      ∀ depth rest, Leads (signedNumber c) depth (c :: cs ++ rest) (number negative)
        (d :: ds ++ rest) := by
  cases negative with
  | false =>
    have hminus : d ≠ '-' := by rintro rfl; simp at hd
    refine ⟨d, ds, rfl, by simp [opensNumber, hd], fun depth rest => ?_⟩
    rw [signedNumber, if_neg hminus]
    exact .refl ..
  | true =>
    refine ⟨'-', d :: ds, rfl, rfl, fun depth rest => ?_⟩
    rw [signedNumber, if_pos rfl]
    exact Gives.bind (gives_eat ..) (.refl ..)

/-- What begins like a number is looked at as one. -/
theorem leads_foundAhead {c : Char} (hc : opensNumber c = true) (depth : Nat)
    (cs : List Char) :
    Leads foundAhead depth (c :: cs) (Number.found <$> signedNumber c) (c :: cs) := by
  refine Gives.bind (gives_peek ..) ?_
  simp only [List.head?_cons]
  split <;> rename_i heq <;> simp only [Option.some.injEq, reduceCtorEq] at heq
  iterate 6 subst heq; cases hc
  subst heq
  rw [if_pos hc]
  exact .refl ..

/-! ### What may follow a value -/

/-- Whether a text is empty or begins with a comma or a line feed, as it does behind a value. -/
def EndsValue (rest : List Char) : Prop := ∀ c, rest.head? = some c → c = ',' ∨ c = '\n'

theorem EndsValue.head? (h : EndsValue rest) :
    rest.head? = none ∨ rest.head? = some ',' ∨ rest.head? = some '\n' := by
  cases hc : rest.head? with
  | none => exact .inl rfl
  | some c => exact .inr ((h c hc).imp (congrArg some) (congrArg some))

theorem EndsValue.any_isDigit (h : EndsValue rest) : rest.head?.any Char.isDigit = false := by
  rcases h.head? with h | h | h <;> rw [h] <;> rfl

theorem endsValue_nil : EndsValue [] := nofun

theorem endsValue_comma (text : List Char) : EndsValue (',' :: text) := by
  rintro c ⟨⟩
  exact .inl rfl

theorem endsValue_lineFeed (text : List Char) : EndsValue ('\n' :: text) := by
  rintro c ⟨⟩
  exact .inr rfl

/-! ### Integers -/

/-- Whole digits with nothing behind them are an integer. -/
theorem gives_numberEnd_whole {negative : Bool} {n : Nat}
    (h : negative = true → n ≠ 0 ∧ n ≤ 2 ^ 63) (hrest : EndsValue rest) (depth : Nat) :
    Gives (numberEnd negative n 0) depth rest (.whole (if negative then -(n : Int) else n))
      rest := by
  refine Gives.bind (gives_peek ..) ?_
  have hafter : (rest.head? == some '.') = false ∧ (rest.head? == some 'e') = false ∧
      (rest.head? == some 'E') = false := by
    rcases hrest.head? with h | h | h <;> rw [h] <;> decide
  simp only [hafter, Bool.or_self, Bool.false_eq_true, if_false, bne_self_eq_false]
  cases negative with
  | false => exact gives_pure ..
  | true =>
    obtain ⟨h0, h63⟩ := h rfl
    have hle : ¬Nat.pow 2 63 < n := not_lt.2 h63
    simp only [Bool.not_true, Bool.false_eq_true, if_false, beq_eq_false_iff_ne.2 h0, hle,
      decide_false, Bool.or_self, if_true]
    exact gives_pure ..

/-- **An integer is read back** if it fits 64 bits. -/
theorem exists_gives_signedNumber_int {i : Int} (hlow : -2 ^ 63 ≤ i) (hhigh : i < 2 ^ 64) :
    ∃ c cs, (toString i).toList = c :: cs ∧ opensNumber c = true ∧
      ∀ depth rest, EndsValue rest →
        Gives (signedNumber c) depth (c :: cs ++ rest) (.whole i) rest := by
  obtain ⟨d, ds, hd, hdigits⟩ := exists_toDigits_eq_cons i.natAbs
  obtain ⟨c, cs, htext, hc, hleads⟩ :=
    exists_leads_signedNumber (decide (i < 0)) (hdigits d (by simp)) ds
  have hfits : decimalValue (d :: ds) ≤ largestWhole := by
    rw [← hd, decimalValue_toDigits]
    simp only [largestWhole, Nat.pow_eq]
    omega
  have hunpadded : (d :: ds).head? ≠ some '0' ∨ d :: ds = ['0'] := by
    rw [← hd]
    by_cases h0 : i.natAbs = 0
    · exact .inr (by rw [h0]; rfl)
    · exact .inl (head?_toDigits_ne h0)
  refine ⟨c, cs, ?_, hc, fun depth rest hrest => ?_⟩
  · rw [toList_toString_int, hd, ← htext]
    simp
  · refine (hleads depth rest).trans ((leads_number (by simp) hdigits hunpadded hfits
      hrest.any_isDigit _).trans ?_)
    rw [← hd, decimalValue_toDigits]
    have hvalue : (if decide (i < 0) then -(i.natAbs : Int) else i.natAbs) = i := by
      simp only [decide_eq_true_eq]
      omega
    have hnegative : decide (i < 0) = true → i.natAbs ≠ 0 ∧ i.natAbs ≤ 2 ^ 63 := by
      simp only [decide_eq_true_eq]
      omega
    have h := gives_numberEnd_whole hnegative hrest depth
    rwa [hvalue] at h

/-! ### Numbers out of digits and exponents -/

/-- Whether what a reader does has nothing to do with the text. It can only tell where it stands. -/
def Settled (p : Read α) : Prop :=
  ∃ r : Except Cause α, ∀ s, p.run s =
    (match r with
    | .ok a => .ok a
    | .error cause => .error ⟨cause, some s.passed⟩, s)

theorem settled_pure (a : α) : Settled (pure a) := ⟨.ok a, fun _ => rfl⟩

theorem settled_failHere (cause : Cause) : Settled (failHere (α := α) cause) :=
  ⟨.error cause, fun _ => rfl⟩

theorem Settled.map {p : Read α} (h : Settled p) (f : α → β) : Settled (f <$> p) := by
  obtain ⟨r, h⟩ := h
  refine ⟨f <$> r, fun s => ?_⟩
  rw [map_eq_pure_bind, run_bind, h]
  cases r <;> rfl

/-- A settled reader that gives a value somewhere gives it everywhere. -/
theorem Settled.gives {p : Read α} (h : Settled p) {a : α} {s s' : State}
    (hrun : p.run s = (.ok a, s')) (depth : Nat) (text : List Char) :
    Gives p depth text a text := by
  obtain ⟨r, h⟩ := h
  cases r with
  | error cause => rw [h] at hrun; cases hrun
  | ok b =>
    rw [h] at hrun
    cases hrun
    exact ⟨fun passed => ⟨passed, h _⟩⟩

theorem settled_scaled (fuel : Nat) (x : Binary64) (e : Int) : Settled (scaled fuel x e) := by
  induction fuel generalizing x e with
  | zero => exact settled_pure x
  | succ fuel ih =>
    unfold scaled
    split
    · split
      · split
        · exact settled_failHere _
        · exact settled_pure _
      · exact settled_pure _
    · split
      · exact settled_pure x
      · split
        · exact settled_failHere _
        · exact ih ..

theorem settled_ofParts (negative : Bool) (digits : Nat) (exponent : Int) :
    Settled (ofParts negative digits exponent) := by
  have h := (settled_scaled (exponent.natAbs + 1) (Binary64.ofDecimal false digits 0) exponent).map
    fun x => if negative then x.neg else x
  rwa [map_eq_pure_bind] at h

/-! ### Floating-point numbers -/

/-- An exponent is read. -/
theorem leads_exponentPart {e : Int} (he : e.natAbs ≤ 331)
    (hrest : rest.head?.any Char.isDigit = false) (negative : Bool) (digits : Nat)
    (exponent : Int) :
    Leads (exponentPart negative digits exponent) depth (Spelling.exponentChars true e ++ rest)
      (ofParts negative digits (exponent + e)) rest := by
  obtain ⟨d, ds, hd, hdigits⟩ := exists_toDigits_eq_cons e.natAbs
  have hvalue : decimalValue (d :: ds) = e.natAbs := by rw [← hd, decimalValue_toDigits]
  rw [List.forall_mem_cons] at hdigits
  have hsmall : ¬largestExponent < e.natAbs := by
    simp only [largestExponent, Nat.pow_eq]
    omega
  obtain ⟨sign, hsign, hchars, hresult⟩ : ∃ sign, (sign = '+' ∨ sign = '-') ∧
      Spelling.exponentChars true e = 'e' :: sign :: (d :: ds) ∧
      (if some sign == some '-' then exponent - e.natAbs else exponent + e.natAbs) =
        exponent + e := by
    by_cases h : e < 0
    · exact ⟨'-', .inr rfl, by simp [Spelling.exponentChars, h, hd], by
        rw [if_pos (by decide)]; omega⟩
    · exact ⟨'+', .inl rfl, by simp [Spelling.exponentChars, h, hd], by
        rw [if_neg (by decide)]; omega⟩
  have heats : (some sign == some '+' || some sign == some '-') = true := by
    rcases hsign with rfl | rfl <;> rfl
  rw [hchars, List.cons_append, List.cons_append, List.cons_append]
  refine Gives.bind (gives_eat ..) (Gives.bind (gives_peek ..) ?_)
  simp only [List.head?_cons, heats, if_true]
  refine Gives.bind (gives_eat ..) (Gives.bind (gives_peek ..) ?_)
  simp only [List.head?_cons, hdigits.1, Bool.not_true, Bool.false_eq_true, if_false]
  refine Gives.bind (gives_eat ..) (leads_get_bind fun passed => ?_)
  refine Gives.bind (gives_digitRun hdigits.2 hrest) ?_
  simp only [hsmall, if_false, hvalue, hresult]
  exact .refl ..

/-- The digits behind a point are read. -/
theorem leads_fractionPart {back : List Char} (hne : back ≠ [])
    (hdigits : ∀ c ∈ back, c.isDigit = true) (hrest : rest.head?.any Char.isDigit = false)
    {n : Nat} (hfits : n * 10 ^ back.length + decimalValue back ≤ largestWhole)
    (negative : Bool) {q : Read Binary64} {rest' : List Char}
    (h : Leads (match rest.head? with
      | some 'e' => exponentPart negative (n * 10 ^ back.length + decimalValue back) (-back.length)
      | some 'E' => exponentPart negative (n * 10 ^ back.length + decimalValue back) (-back.length)
      | _ => ofParts negative (n * 10 ^ back.length + decimalValue back) (-back.length))
      depth rest q rest') :
    Leads (fractionPart negative n 0) depth ('.' :: (back ++ rest)) q rest' := by
  refine Gives.bind (gives_eat ..) (Gives.bind (gives_digitRun hdigits hrest) ?_)
  simp only [List.isEmpty_eq_false_iff.2 hne, Bool.false_eq_true, if_false, addDigits_eq hfits,
    Nat.zero_add, zero_sub]
  exact Gives.bind (gives_peek ..) h

theorem Leads.map {p q : Read α} (h : Leads p depth text q rest) (f : α → β) :
    Leads (f <$> p) depth text (f <$> q) rest := ⟨fun passed => by
  obtain ⟨passed', h⟩ := h.run passed
  exact ⟨passed', by rw [map_eq_pure_bind, map_eq_pure_bind, run_bind, run_bind, h]⟩⟩

/-- A spelling is read as its digits and their scale. -/
theorem leads_number_chars {s : Spelling} (hs : s.Regular) (hrest : EndsValue rest)
    (negative : Bool) :
    Leads (number negative) depth (s.chars true ++ rest)
      (.float <$> ofParts negative (decimalValue (s.front ++ s.back)) s.scale) rest := by
  obtain ⟨front, back, exponent⟩ := s
  have hfits : decimalValue front * 10 ^ back.length + decimalValue back ≤ largestWhole := by
    have h : decimalValue (front ++ back) < 2 ^ 64 := hs.fits
    rw [decimalValue_append] at h
    simp only [largestWhole, Nat.pow_eq]
    omega
  have hfront : decimalValue front ≤ largestWhole := by
    have : decimalValue front ≤ decimalValue front * 10 ^ back.length :=
      Nat.le_mul_of_pos_right _ (by positivity)
    omega
  have htail : (exponent.elim [] (Spelling.exponentChars true) ++ rest).head?.any Char.isDigit =
      false := by
    cases exponent with
    | none => exact hrest.any_isDigit
    | some e => rfl
  have hleads {text : List Char} (htext : text.head?.any Char.isDigit = false) :
      Leads (number negative) depth (front ++ text) (numberEnd negative (decimalValue front) 0)
        text :=
    leads_number hs.front_ne_nil hs.isDigit_front hs.unpadded hfront htext negative
  by_cases hback : back = []
  · -- an exponent behind the whole digits
    subst hback
    obtain ⟨e, rfl⟩ := Option.isSome_iff_exists.1 (hs.isFraction.resolve_left (by simp))
    have he := hs.exponent_le e rfl
    have hscale : Spelling.scale ⟨front, [], some e⟩ = 0 + e := by simp [Spelling.scale]
    simp only [Spelling.chars, List.isEmpty_nil, if_true, List.append_nil, Option.elim_some,
      List.append_assoc, hscale]
    refine (hleads htail).trans (Gives.bind (gives_peek ..) ?_)
    exact (leads_exponentPart he hrest.any_isDigit ..).map _
  · have hvalue : decimalValue (front ++ back) =
        decimalValue front * 10 ^ back.length + decimalValue back := decimalValue_append ..
    simp only [Spelling.chars, List.isEmpty_eq_false_iff.2 hback, Bool.false_eq_true, if_false,
      List.append_assoc, List.cons_append, hvalue]
    refine (hleads rfl).trans (Gives.bind (gives_peek ..) ?_)
    refine (leads_fractionPart hback hs.isDigit_back htail hfits negative ?_).map _
    cases exponent with
    | none =>
      have hscale : Spelling.scale ⟨front, back, none⟩ = -back.length := by simp [Spelling.scale]
      rw [hscale, Option.elim_none, List.nil_append]
      rcases hrest.head? with h | h | h <;> rw [h] <;> exact .refl ..
    | some e =>
      have hscale : Spelling.scale ⟨front, back, some e⟩ = -back.length + e := by
        simp [Spelling.scale]
        ring
      rw [hscale]
      exact leads_exponentPart (hs.exponent_le e rfl) hrest.any_isDigit ..

/-- Whether a number is kept by JSON: read alone, what is written for it gives it back. -/
def Keeps (x : Binary64) : Prop :=
  x.Canonical ∧ ∃ s, foundAhead.run (.start (numberStyle.write x)) = (.ok (.float x), s)

/-- What is not finite is written as nothing. -/
theorem not_keeps_infinite (negative : Bool) : ¬Keeps (.infinite negative) := by
  rintro ⟨-, s, h⟩
  cases negative <;> cases h

theorem not_keeps_undefined : ¬Keeps .undefined := by
  rintro ⟨-, s, h⟩
  cases h

/-- A number of seventeen digits may be read as its neighbour: so is 123456789012.42487. -/
theorem not_keeps_finite : ¬Keeps (.finite false 8090864124718276 1058) := by
  rintro ⟨-, s, h⟩
  have hread : (foundAhead.run (.start (numberStyle.write
      (.finite false 8090864124718276 1058)))).1.toOption =
        some (.float (.finite false 8090864124718277 1058)) := by
    decide +kernel
  rw [h] at hread
  cases hread

/-- Reads the decimal that is written for a number, with its sign. -/
def ofWritten (negative : Bool) (m e : Nat) : Read Binary64 :=
  ofParts negative (numberStyle.written m e).digits (numberStyle.written m e).exponent

/-- A number is read from its text as its digits and their scale, whatever follows. -/
theorem exists_leads_foundAhead {negative : Bool} {m e : Nat}
    (hcanonical : (Binary64.finite negative m e).Canonical) :
    ∃ (c : Char) (cs : List Char),
      (numberStyle.write (.finite negative m e)).toList = c :: cs ∧ opensNumber c = true ∧
      ∀ depth rest, EndsValue rest →
        Leads foundAhead depth (c :: cs ++ rest) (.float <$> ofWritten negative m e) rest := by
  obtain ⟨s, hs, hwritten, -, htext⟩ := numberStyle.exists_spelling_write (by decide) hcanonical
  obtain ⟨d, ds, hchars, hd⟩ := hs.exists_chars_eq_cons true
  obtain ⟨c, cs, hcs, hc, hleads⟩ := exists_leads_signedNumber negative hd ds
  refine ⟨c, cs, by rw [htext, ← hcs]; exact congrArg _ hchars, hc, fun depth rest hrest => ?_⟩
  refine (leads_foundAhead hc ..).trans ?_
  have h := ((hleads depth rest).trans (hchars ▸ leads_number_chars hs hrest negative)).map
    Number.found
  rw [ofWritten, ← hwritten]
  rwa [← comp_map] at h

/-! ### Short numbers -/

/-- Whether a number is written with digits below `2 ^ 53` and a scale of no more than twenty-two.
-/
def IsShort : Binary64 → Prop
  | .finite _ m e =>
    (numberStyle.written m e).digits < 2 ^ 53 ∧ (numberStyle.written m e).exponent.natAbs ≤ 22
  | _ => False

instance : DecidablePred IsShort
  | .finite _ m e => inferInstanceAs (Decidable ((numberStyle.written m e).digits < 2 ^ 53 ∧
      (numberStyle.written m e).exponent.natAbs ≤ 22))
  | .infinite _ => isFalse id
  | .undefined => isFalse id

/-- A small scale takes one step. -/
theorem scaled_eq_pure {x : Binary64} {k : Int} {m e : Nat} (hk : k.natAbs ≤ 22)
    (h : x.rescaled k = .finite false m e) (fuel : Nat) :
    scaled (fuel + 1) x k = pure (.finite false m e) := by
  have hsmall : k.natAbs ≤ largestPower := hk.trans (by decide)
  rw [scaled, if_pos hsmall]
  unfold Binary64.rescaled at h
  split at h
  · rename_i hpositive
    rw [if_pos hpositive, h]
  · rename_i hpositive
    rw [if_neg hpositive, h]

/-- The decimal that is written for a number is nearest to it. -/
theorem ofDecimal_written {m e : Nat} (hcanonical : (Binary64.finite false m e).Canonical) :
    Binary64.ofDecimal false (numberStyle.written m e).digits (numberStyle.written m e).exponent =
      .finite false m e := by
  obtain ⟨s, -, hwritten, hnumber, -⟩ := numberStyle.exists_spelling_write (by decide) hcanonical
  rwa [Spelling.number, hwritten] at hnumber

/-- **Short numbers are kept.** -/
theorem keeps_of_isShort {x : Binary64} (hcanonical : x.Canonical) (h : IsShort x) : Keeps x := by
  cases x with
  | infinite negative => exact h.elim
  | undefined => exact h.elim
  | finite negative m e =>
    obtain ⟨hdigits, hscale⟩ := h
    obtain ⟨bits, full, small⟩ := Binary64.canonical_finite_iff.1 hcanonical
    have hrescaled : (Binary64.ofDecimal false (numberStyle.written m e).digits 0).rescaled
        (numberStyle.written m e).exponent = .finite false m e := by
      rw [Binary64.rescaled_eq_ofDecimal hdigits hscale,
        ofDecimal_written (.finite bits full small)]
    have hpure : ofWritten negative m e = pure (.finite negative m e) := by
      rw [ofWritten, ofParts, scaled_eq_pure hscale hrescaled, pure_bind]
      cases negative <;> rfl
    obtain ⟨c, cs, htext, -, hleads⟩ := exists_leads_foundAhead hcanonical
    obtain ⟨passed, hrun⟩ := (hleads depthLimit [] endsValue_nil).run 0
    rw [List.append_nil, ← htext, hpure] at hrun
    exact ⟨hcanonical, _, hrun⟩

/-! ### Numbers that are kept -/

/-- **A number that is kept is read back** wherever it stands. -/
theorem gives_foundAhead_float {x : Binary64} (h : Keeps x) (hrest : EndsValue rest)
    (depth : Nat) :
    Gives foundAhead depth ((numberStyle.write x).toList ++ rest) (.float x) rest := by
  obtain ⟨hcanonical, s, hrun⟩ := h
  cases x with
  | infinite negative => exact absurd ⟨hcanonical, s, hrun⟩ (not_keeps_infinite negative)
  | undefined => exact absurd ⟨hcanonical, s, hrun⟩ not_keeps_undefined
  | finite negative m e =>
    obtain ⟨c, cs, htext, -, hleads⟩ := exists_leads_foundAhead hcanonical
    have hsettled : Settled (ofWritten negative m e) := settled_ofParts ..
    obtain ⟨passed, halone⟩ := (hleads depthLimit [] endsValue_nil).run 0
    rw [List.append_nil, ← htext] at halone
    rw [htext]
    exact (hleads depth rest hrest).trans
      ((hsettled.map Found.float).gives (halone.symm.trans hrun) ..)

end

end DocBlocks.Json.Read
