import Mathlib.Data.List.Basic
import Mathlib.Data.List.TakeDrop
import TypeRecovery.Json.Printer
import TypeRecovery.Json.Reader

/-!
# Reading what is written

A text reads as a document if the reader gets the document from it, whatever blanks come before it
and whatever comes after it that cannot go on a number. Literals read as what they were written
for, and texts of items and members that are put between brackets read as the list or record of what
they read as. How the items are set apart does not matter, so this holds of every layout.
-/

namespace TypeRecovery

namespace Json

open Scan (digitsValue hexDigit?)

/-! ## Blanks -/

/-- There are only blanks. -/
def Blanks (cs : List Char) : Prop := ∀ c ∈ cs, isBlank c = true

private theorem skipBlanks_append {blanks : List Char} (h : Blanks blanks) (cs : List Char) :
    skipBlanks (blanks ++ cs) = skipBlanks cs :=
  List.dropWhile_append_of_pos h

private theorem skipBlanks_cons {c : Char} (h : isBlank c = false) (cs : List Char) :
    skipBlanks (c :: cs) = c :: cs := by
  simp [skipBlanks, h]

/-- The character after some blanks. -/
theorem skipBlanks_to {blanks : List Char} (h : Blanks blanks) {c : Char} (hc : isBlank c = false)
    (cs : List Char) : skipBlanks (blanks ++ c :: cs) = c :: cs := by
  rw [skipBlanks_append h, skipBlanks_cons hc]

/-! ## String literals -/

private theorem hexDigit?_hexChar {n : Nat} (h : n < 16) : hexDigit? (hexChar n) = some n := by
  revert n
  decide

/-- The piece as which a character is read back. -/
def pieceOf (c : Char) : Piece :=
  if c.toNat < 32 ∧ c ∉ ['\x08', '\x0c', '\n', '\r', '\t'] then .unit c.toNat else .char c

/-- An escaped character is read as a piece. -/
theorem scanString_escapeChar (done : List Piece) (c : Char) (rest : List Char) :
    scanString .plain done (escapeChar c ++ rest) = scanString .plain (pieceOf c :: done) rest := by
  rw [escapeChar]
  split_ifs with hquote hslash hb hf hn hr ht hcontrol
  -- the characters with a short escape
  · subst hquote
    rfl
  · subst hslash
    rfl
  · subst hb
    rfl
  · subst hf
    rfl
  · subst hn
    rfl
  · subst hr
    rfl
  · subst ht
    rfl
  · -- the other control characters, which are written by their number
    have hhigh := hexDigit?_hexChar (show c.toNat / 16 < 16 by omega)
    have hlow := hexDigit?_hexChar (Nat.mod_lt c.toNat (show 16 > 0 by omega))
    have hpiece : pieceOf c = .unit c.toNat := by simp [pieceOf, hcontrol, hb, hf, hn, hr, ht]
    have hvalue : 16 * (c.toNat / 16) + c.toNat % 16 = c.toNat := Nat.div_add_mod _ _
    have hzero : hexDigit? '0' = some 0 := rfl
    simp [scanString, hzero, hhigh, hlow, hpiece, hvalue]
  · have hpiece : pieceOf c = .char c := by simp [pieceOf, hcontrol]
    simp [scanString, hquote, hslash, hcontrol, hpiece]

/-- A quoted text is read up to the closing quote. -/
theorem scanString_quoted (cs rest : List Char) (done : List Piece) :
    scanString .plain done (cs.flatMap escapeChar ++ '"' :: rest) =
      some (done.reverse ++ cs.map pieceOf, rest) := by
  induction cs generalizing done with
  | nil => simp [scanString]
  | cons c cs ih =>
    rw [List.flatMap_cons, List.append_assoc, scanString_escapeChar, ih]
    simp

/-- A code unit that is no half of a surrogate pair is a character. -/
theorem joinPieces_unit {u : Nat} (hhigh : isHighSurrogate u = false)
    (hlow : isLowSurrogate u = false) (rest : List Piece) :
    joinPieces (.unit u :: rest) = (joinPieces rest).map (Char.ofNat u :: ·) := by
  rw [joinPieces.eq_def]
  simp [hhigh, hlow]

private theorem joinPieces_map_pieceOf (cs : List Char) :
    joinPieces (cs.map pieceOf) = some cs := by
  induction cs with
  | nil => rfl
  | cons c cs ih =>
    rw [List.map_cons, pieceOf]
    split
    · rename_i h
      have hhigh : isHighSurrogate c.toNat = false := by
        simp only [isHighSurrogate, Bool.and_eq_false_iff, decide_eq_false_iff_not]
        omega
      have hlow : isLowSurrogate c.toNat = false := by
        simp only [isLowSurrogate, Bool.and_eq_false_iff, decide_eq_false_iff_not]
        omega
      simp [joinPieces_unit hhigh hlow, ih]
    · simp [joinPieces, ih]

/-- A string literal is read back, with or without text. -/
theorem readText?_quoteText (text : Text) :
    ∃ body, (quoteText text).toList = '"' :: body ∧
      ∀ rest, readText? (body ++ rest) = some (text, rest) := by
  cases text with
  | none => exact ⟨['\\', 'u', 'd', '8', '0', '0', '"'], by decide, fun _ => rfl⟩
  | some text =>
    refine ⟨text.toList.flatMap escapeChar ++ ['"'], ?_, ?_⟩
    · simp [quoteText, quote]
    · intro rest
      rw [List.append_assoc, List.singleton_append, readText?, scanString_quoted]
      simp [joinPieces_map_pieceOf]

/-! ## Numbers -/

/-- A number cannot go on with what comes next. -/
def Ends (rest : List Char) : Prop :=
  ∀ c ∈ rest.head?, c.isDigit = false ∧ c ≠ '.' ∧ c ≠ 'e' ∧ c ≠ 'E'

/-- The digits of a number have its value. -/
theorem digitsValue_toDigits (n : Nat) : digitsValue (Nat.toDigits 10 n) = n :=
  Nat.ofDigitChars_ten_toDigits

/-- The digits of a number are digits. -/
theorem isDigit_of_mem_toDigits {n : Nat} {c : Char} (h : c ∈ Nat.toDigits 10 n) :
    c.isDigit = true :=
  Nat.isDigit_of_mem_toDigits (by decide) (by decide) h

/-- Zeros in front do not count. -/
theorem digitsValue_zeros (count : Nat) (digits : List Char) :
    digitsValue (List.replicate count '0' ++ digits) = digitsValue digits := by
  change Nat.ofDigitChars 10 (List.replicate count '0' ++ digits) 0 = Nat.ofDigitChars 10 digits 0
  rw [Nat.ofDigitChars_append, Nat.ofDigitChars_replicate_zero, Nat.mul_zero]

/-- Only zero starts with the digit zero. -/
theorem head?_toDigits {n : Nat} (h : n ≠ 0) : (Nat.toDigits 10 n).head? ≠ some '0' := by
  have hdigit : ∀ d < 10, d ≠ 0 → d.digitChar ≠ '0' := by decide
  induction n using Nat.strongRecOn with
  | ind n ih =>
    by_cases hlt : n < 10
    · simpa [Nat.toDigits_of_lt_base hlt] using hdigit n hlt h
    · rw [Nat.toDigits_of_base_le (by decide) (by omega), List.head?_append_of_ne_nil _
        Nat.toDigits_ne_nil]
      exact ih (n / 10) (by omega) (by omega)

private theorem readDigits?_append {digits rest : List Char} (hne : digits ≠ [])
    (hdigits : ∀ c ∈ digits, c.isDigit = true) (hrest : ∀ c ∈ rest.head?, c.isDigit = false) :
    readDigits? (digits ++ rest) = some (digits, rest) := by
  have htake : rest.takeWhile Char.isDigit = [] := by
    cases rest with
    | nil => rfl
    | cons c rest => simp [hrest c rfl]
  have hdrop : rest.dropWhile Char.isDigit = rest := by
    cases rest with
    | nil => rfl
    | cons c rest => simp [hrest c rfl]
  rw [readDigits?, List.span_eq_takeWhile_dropWhile, List.takeWhile_append_of_pos hdigits,
    List.dropWhile_append_of_pos hdigits, htake, hdrop, List.append_nil]
  cases digits with
  | nil => exact absurd rfl hne
  | cons c digits => rfl

/-- Digits of which the first is zero only if there is no other. -/
theorem readWhole?_append {digits rest : List Char} (hne : digits ≠ [])
    (hdigits : ∀ c ∈ digits, c.isDigit = true) (hzero : digits.head? = some '0' → digits = ['0'])
    (hrest : ∀ c ∈ rest.head?, c.isDigit = false) :
    readWhole? (digits ++ rest) = some (digits, rest) := by
  by_cases h : digits.head? = some '0'
  · rw [hzero h]
    rfl
  · rw [readWhole?.eq_2]
    · exact readDigits?_append hne hdigits hrest
    · intro rest' hcons
      cases digits with
      | nil => exact hne rfl
      | cons c digits =>
        cases hcons
        exact h rfl

private theorem readWhole?_toDigits (n : Nat) (rest : List Char)
    (hrest : ∀ c ∈ rest.head?, c.isDigit = false) :
    readWhole? (Nat.toDigits 10 n ++ rest) = some (Nat.toDigits 10 n, rest) := by
  refine readWhole?_append Nat.toDigits_ne_nil (fun _ => isDigit_of_mem_toDigits) ?_ hrest
  intro hhead
  by_cases hn : n = 0
  · rw [hn]
    rfl
  · exact absurd hhead (head?_toDigits hn)

private theorem readFraction?_of_ends (rest : List Char) (h : ∀ c ∈ rest.head?, c ≠ '.') :
    readFraction? rest = some (none, rest) := by
  rw [readFraction?.eq_2]
  rintro rest' rfl
  exact h '.' rfl rfl

private theorem readExponent?_of_ends {rest : List Char} (h : Ends rest) :
    readExponent? rest = some (none, rest) := by
  cases rest with
  | nil => rfl
  | cons c rest =>
    obtain ⟨-, -, he, hE⟩ := h c rfl
    simp [readExponent?, he, hE]

/-- An exponent is read from its digits. -/
theorem readExponent?_toDigits (n : Nat) {rest : List Char} (h : Ends rest) :
    readExponent? ('e' :: (Nat.toDigits 10 n ++ rest)) = some (some (n : Int), rest) := by
  have hdigits : ∀ c ∈ Nat.toDigits 10 n, c.isDigit = true := fun _ => isDigit_of_mem_toDigits
  have hread := readDigits?_append Nat.toDigits_ne_nil hdigits fun c hc => (h c hc).1
  -- no digit is a sign
  have hsign : ∀ c rest', c.isDigit = false → Nat.toDigits 10 n ++ rest ≠ c :: rest' := by
    intro c rest' hc heq
    obtain ⟨d, digits, hcons⟩ := List.exists_cons_of_ne_nil (Nat.toDigits_ne_nil (n := n) (b := 10))
    rw [hcons] at heq
    cases heq
    simp [hdigits c (by simp [hcons])] at hc
  rw [readExponent?.eq_3 _ _ (fun rest' => hsign '-' rest' rfl) fun rest' => hsign '+' rest' rfl,
    if_pos (Or.inl rfl), hread]
  simp [digitsValue_toDigits]

/-- Digits with neither a point nor an exponent. -/
theorem readMagnitude?_toDigits (isNegative : Bool) (n : Nat) {rest : List Char} (h : Ends rest) :
    readMagnitude? isNegative (Nat.toDigits 10 n ++ rest) =
      some (if isNegative then .negative n else .natural n, rest) := by
  have hwhole := readWhole?_toDigits n rest fun c hc => (h c hc).1
  have hfraction := readFraction?_of_ends rest fun c hc => (h c hc).2.1
  simp [readMagnitude?, hwhole, hfraction, readExponent?_of_ends h, digitsValue_toDigits]

/-- Digits with an exponent. -/
theorem readMagnitude?_exponent (isNegative : Bool) (m n : Nat) {rest : List Char}
    (h : Ends rest) :
    readMagnitude? isNegative (Nat.toDigits 10 m ++ 'e' :: (Nat.toDigits 10 n ++ rest)) =
      some (.decimal isNegative m n, rest) := by
  have hwhole := readWhole?_toDigits m ('e' :: (Nat.toDigits 10 n ++ rest)) (by simp)
  have hfraction := readFraction?_of_ends ('e' :: (Nat.toDigits 10 n ++ rest)) (by simp)
  simp [readMagnitude?, hwhole, hfraction, readExponent?_toDigits n h, digitsValue_toDigits]

/-- Digits with a point. -/
theorem readMagnitude?_point (isNegative : Bool) (whole fraction : List Char) {rest : List Char}
    (hwhole : whole ≠ []) (hfraction : fraction ≠ [])
    (hdigits : ∀ c ∈ whole ++ fraction, c.isDigit = true)
    (hzero : whole.head? = some '0' → whole = ['0']) (h : Ends rest) :
    readMagnitude? isNegative (whole ++ '.' :: (fraction ++ rest)) =
      some (.decimal isNegative (digitsValue (whole ++ fraction)) (-fraction.length), rest) := by
  have hleft : readWhole? (whole ++ '.' :: (fraction ++ rest)) =
      some (whole, '.' :: (fraction ++ rest)) :=
    readWhole?_append hwhole (fun c hc => hdigits c (List.mem_append_left _ hc)) hzero (by simp)
  have hright := readDigits?_append hfraction
    (fun c hc => hdigits c (List.mem_append_right _ hc)) fun c hc => (h c hc).1
  simp [readMagnitude?, hleft, readFraction?, hright, readExponent?_of_ends h]

/-- A fraction is written with a digit before the point, which is zero only where it has to be, and
with as many digits after it as there are places. -/
theorem pointText_split (mantissa places : Nat) :
    ∃ whole fraction, (pointText mantissa places).toList = whole ++ '.' :: fraction ∧
      whole ≠ [] ∧ fraction.length = places ∧ (∀ c ∈ whole ++ fraction, c.isDigit = true) ∧
      (whole.head? = some '0' → whole = ['0']) ∧ digitsValue (whole ++ fraction) = mantissa := by
  have hdigits : ∀ c ∈ Nat.toDigits 10 mantissa, c.isDigit = true :=
    fun _ => isDigit_of_mem_toDigits
  have hhead : (Nat.toDigits 10 mantissa).head? = some '0' →
      (Nat.toDigits 10 mantissa).length = 1 := by
    intro hhead
    by_cases hm : mantissa = 0
    · rw [hm]
      rfl
    · exact absurd hhead (head?_toDigits hm)
  have hvalue := digitsValue_zeros (places + 1 - (Nat.toDigits 10 mantissa).length)
    (Nat.toDigits 10 mantissa)
  rw [digitsValue_toDigits] at hvalue
  simp only [pointText, String.toList_ofList]
  generalize Nat.toDigits 10 mantissa = digits at hdigits hhead hvalue ⊢
  generalize hpadded : List.replicate (places + 1 - digits.length) '0' ++ digits = padded
    at hvalue ⊢
  have hlength : padded.length = max (places + 1) digits.length := by
    simp only [← hpadded, List.length_append, List.length_replicate]
    omega
  have hsplit := List.take_append_drop (padded.length - places) padded
  refine ⟨_, _, rfl, List.ne_nil_of_length_pos ?_, ?_, ?_, ?_, by rw [hsplit, hvalue]⟩
  · rw [List.length_take]
    omega
  · rw [List.length_drop]
    omega
  · rw [hsplit, ← hpadded]
    intro c hc
    rcases List.mem_append.mp hc with hpad | hdigit
    · rw [List.eq_of_mem_replicate hpad]
      rfl
    · exact hdigits c hdigit
  · intro hzero
    rw [List.head?_take, if_neg (by omega)] at hzero
    -- a leading zero is the only digit before the point, whether it was added or is the number
    have hone : padded.length = places + 1 := by
      by_cases hpad : places + 1 - digits.length = 0
      · rw [← hpadded, hpad, List.replicate_zero, List.nil_append] at hzero
        have hsingle := hhead hzero
        omega
      · omega
    rw [hone, Nat.add_sub_cancel_left]
    obtain ⟨tail, rfl⟩ := List.head?_eq_some_iff.mp hzero
    rfl

/-- A magnitude with a point is read. -/
theorem readMagnitude?_pointText (isNegative : Bool) (mantissa : Nat) {places : Nat}
    (hplaces : places ≠ 0) {rest : List Char} (h : Ends rest) :
    readMagnitude? isNegative ((pointText mantissa places).toList ++ rest) =
      some (.decimal isNegative mantissa (-places), rest) := by
  obtain ⟨whole, fraction, htext, hwhole, hlength, hdigits, hzero, hvalue⟩ :=
    pointText_split mantissa places
  have hfraction : fraction ≠ [] := List.ne_nil_of_length_pos (by omega)
  have hread := readMagnitude?_point isNegative whole fraction hwhole hfraction hdigits hzero h
  rw [hvalue, hlength] at hread
  rw [htext, List.append_assoc, List.cons_append]
  exact hread

/-- A magnitude starts with a digit. -/
theorem head_of_readMagnitude? {isNegative : Bool} {cs : List Char} {result : Number × List Char}
    (h : readMagnitude? isNegative cs = some result) :
    ∃ c rest, cs = c :: rest ∧ c.isDigit = true := by
  cases cs with
  | nil => simp [readMagnitude?, readWhole?, readDigits?, List.span_eq_takeWhile_dropWhile] at h
  | cons c rest =>
    refine ⟨c, rest, rfl, ?_⟩
    by_contra hc
    have hzero : c ≠ '0' := by
      rintro rfl
      exact hc rfl
    simp [readMagnitude?, readWhole?, readDigits?, List.span_eq_takeWhile_dropWhile, hc, hzero] at h

/-- A number starts with a digit or a sign. -/
theorem head_of_readNumber? {cs : List Char} {result : Number × List Char}
    (h : readNumber? cs = some result) :
    ∃ c rest, cs = c :: rest ∧ (c = '-' ∨ c.isDigit = true) := by
  rw [readNumber?.eq_def] at h
  split at h
  · exact ⟨_, _, rfl, Or.inl rfl⟩
  · obtain ⟨c, rest, rfl, hc⟩ := head_of_readMagnitude? h
    exact ⟨c, rest, rfl, Or.inr hc⟩

/-- Without a sign a number is a magnitude. -/
theorem readNumber?_of_readMagnitude? {cs : List Char} {result : Number × List Char}
    (h : readMagnitude? false cs = some result) : readNumber? cs = some result := by
  obtain ⟨c, rest, rfl, hc⟩ := head_of_readMagnitude? h
  rw [readNumber?.eq_2]
  · exact h
  · rintro rest' hcons
    cases hcons
    cases hc

/-- A number is read back as it was written. -/
theorem readNumber?_render (n : Number) {rest : List Char} (h : Ends rest) :
    readNumber? (n.render.toList ++ rest) = some (n, rest) := by
  cases n with
  | natural n =>
    simpa [Number.render, decimalText] using
      readNumber?_of_readMagnitude? (readMagnitude?_toDigits false n h)
  | negative n =>
    simpa [Number.render, decimalText, readNumber?] using readMagnitude?_toDigits true n h
  | decimal isNegative mantissa exponent =>
    have hread : readMagnitude? isNegative ((if exponent < 0 then
        pointText mantissa exponent.natAbs
        else decimalText mantissa ++ "e" ++ decimalText exponent.natAbs).toList ++ rest) =
        some (.decimal isNegative mantissa exponent, rest) := by
      split
      · rename_i hneg
        rw [readMagnitude?_pointText isNegative mantissa (by omega) h]
        congr
        omega
      · rename_i hpos
        have hexponent := readMagnitude?_exponent isNegative mantissa exponent.natAbs h
        rw [show (exponent.natAbs : Int) = exponent by omega] at hexponent
        simpa [decimalText] using hexponent
    cases isNegative with
    | false => simpa [Number.render] using readNumber?_of_readMagnitude? hread
    | true => simpa [Number.render, readNumber?] using hread

/-! ## Literals -/

/-- The reader gets the document from the text, whatever blanks come before it and whatever comes
after it that does not go on a number. -/
structure ReadsAs (cs : List Char) (j : Json) : Prop where
  /-- The text does not start with a blank, nor with the end of a list. -/
  head : ∃ c rest, cs = c :: rest ∧ isBlank c = false ∧ c ≠ ']'
  /-- The text is read if the fuel is enough for its length. -/
  read : ∀ blanks rest fuel, Blanks blanks → Ends rest → cs.length ≤ fuel →
    readValue? fuel (blanks ++ (cs ++ rest)) = some (j, rest)

/-- Reading a text that starts with a character that is no blank. -/
theorem readsAs_of_cons {c : Char} {cs : List Char} {j : Json} (hblank : isBlank c = false)
    (hclosing : c ≠ ']') (h : ∀ blanks rest fuel, Blanks blanks → Ends rest → cs.length ≤ fuel →
      readValue? (fuel + 1) (blanks ++ c :: (cs ++ rest)) = some (j, rest)) :
    ReadsAs (c :: cs) j where
  head := ⟨c, cs, rfl, hblank, hclosing⟩
  read blanks rest fuel hblanks hrest hfuel := by
    obtain _ | fuel := fuel
    · simp at hfuel
    · exact h blanks rest fuel hblanks hrest (Nat.le_of_succ_le_succ hfuel)

private theorem ends_of_head {c : Char} {rest : List Char}
    (h : c.isDigit = false ∧ c ≠ '.' ∧ c ≠ 'e' ∧ c ≠ 'E') : Ends (c :: rest) := by
  intro d hd
  cases hd
  exact h

private theorem ends_of_blanks {blanks rest : List Char} (hblanks : Blanks blanks)
    (hrest : Ends rest) :
    Ends (blanks ++ rest) := by
  cases blanks with
  | nil => exact hrest
  | cons c blanks =>
    have hc := hblanks c List.mem_cons_self
    simp only [isBlank, Bool.or_eq_true, decide_eq_true_eq] at hc
    apply ends_of_head
    rcases hc with ((rfl | rfl) | rfl) | rfl <;> decide

/-- The word for nothing is read. -/
theorem readsAs_null : ReadsAs ['n', 'u', 'l', 'l'] .null := by
  refine readsAs_of_cons rfl (by decide) fun blanks rest fuel hblanks _ _ => ?_
  simp [readValue?, skipBlanks_to hblanks (show isBlank 'n' = false from rfl), Scan.afterWord?]

/-- The word for truth is read. -/
theorem readsAs_true : ReadsAs ['t', 'r', 'u', 'e'] (.bool true) := by
  refine readsAs_of_cons rfl (by decide) fun blanks rest fuel hblanks _ _ => ?_
  simp [readValue?, skipBlanks_to hblanks (show isBlank 't' = false from rfl), Scan.afterWord?]

/-- The word for falsehood is read. -/
theorem readsAs_false : ReadsAs ['f', 'a', 'l', 's', 'e'] (.bool false) := by
  refine readsAs_of_cons rfl (by decide) fun blanks rest fuel hblanks _ _ => ?_
  simp [readValue?, skipBlanks_to hblanks (show isBlank 'f' = false from rfl), Scan.afterWord?]

/-- A quoted text is read as the text. -/
theorem readsAs_string (text : Text) : ReadsAs (quoteText text).toList (.string text) := by
  obtain ⟨body, hbody, hread⟩ := readText?_quoteText text
  rw [hbody]
  refine readsAs_of_cons rfl (by decide) fun blanks rest fuel hblanks _ _ => ?_
  simp [readValue?, skipBlanks_to hblanks (show isBlank '"' = false from rfl), hread]

/-- A rendered number is read as the number. -/
theorem readsAs_number (n : Number) : ReadsAs n.render.toList (.number n) := by
  have halone : readNumber? n.render.toList = some (n, []) := by
    simpa using readNumber?_render n (show Ends [] by simp [Ends])
  obtain ⟨c, cs, hcons, hc⟩ := head_of_readNumber? halone
  -- no other document starts like a number
  have hothers : ∀ d ∈ [' ', '\n', '\t', '\r', '"', '[', ']', '\x7b', 'n', 't', 'f'],
      ¬(d = '-' ∨ d.isDigit = true) := by simp
  have hother : ∀ d ∈ [' ', '\n', '\t', '\r', '"', '[', ']', '\x7b', 'n', 't', 'f'], c ≠ d :=
    fun d hd hcd => hothers d hd (hcd ▸ hc)
  have hblank : isBlank c = false := by
    simp [isBlank, hother ' ', hother '\n', hother '\t', hother '\r']
  rw [hcons]
  refine readsAs_of_cons hblank (hother _ (by simp)) fun blanks rest fuel hblanks hrest _ => ?_
  have hread := readNumber?_render n hrest
  rw [hcons] at hread
  rw [readValue?, skipBlanks_to hblanks hblank]
  split
  iterate 6
    · rename_i heq
      exact absurd (List.cons.inj heq).1 (hother _ (by simp))
  · rw [← List.cons_append, hread]
    rfl

/-! ## Lists and records -/

/-- Texts with commas and gaps in between. -/
def row (gap : List Char) (texts : List (List Char)) : List Char :=
  List.intercalate (',' :: gap) texts

/-- The texts of a row are no longer than the row, and there are not many more of them. -/
theorem length_le_row (gap : List Char) (texts : List (List Char)) :
    (∀ text ∈ texts, text.length ≤ (row gap texts).length) ∧
      texts.length ≤ (row gap texts).length + 1 := by
  induction texts with
  | nil => simp
  | cons text texts ih =>
    cases texts with
    | nil => simp [row]
    | cons text' texts =>
      obtain ⟨htexts, hlength⟩ := ih
      simp only [row, List.intercalate_cons_cons] at htexts hlength ⊢
      simp only [List.length_append, List.length_cons, List.mem_cons] at htexts hlength ⊢
      constructor
      · rintro l (rfl | hl)
        · omega
        · have hle := htexts l hl
          omega
      · omega

/-- After some blanks a row starts like its first text. -/
theorem skipBlanks_row {before : List Char} (hbefore : Blanks before) (gap : List Char) {c : Char}
    {text : List Char} (hblank : isBlank c = false) (texts : List (List Char))
    (after : List Char) :
    ∃ rest, row gap ((c :: text) :: texts) ++ after = c :: rest ∧
      skipBlanks (before ++ (row gap ((c :: text) :: texts) ++ after)) = c :: rest := by
  obtain ⟨rest, hrest⟩ : ∃ rest, row gap ((c :: text) :: texts) ++ after = c :: rest := by
    cases texts with
    | nil => exact ⟨_, by rw [row, List.intercalate_singleton, List.cons_append]⟩
    | cons text' texts => exact ⟨_, by rw [row, List.intercalate_cons_cons]; rfl⟩
  refine ⟨rest, hrest, ?_⟩
  rw [hrest, skipBlanks_to hbefore hblank]

section Row

variable {α : Type} (elem : List Char → Option (α × List Char))
  {loop : Nat → List Char → Option (List α × List Char)} {closing : Char}

/-- A row is read element by element. The reader is given by what it does after an element: it goes
on after a comma and stops at the closing bracket. -/
theorem read_row (hclosing : isBlank closing = false) (hends : ∀ rest, Ends (closing :: rest))
    (hmore : ∀ {fuel cs x rest more xs last}, elem cs = some (x, rest) →
      skipBlanks rest = ',' :: more → loop fuel more = some (xs, last) →
      loop (fuel + 1) cs = some (x :: xs, last))
    (hlast : ∀ {fuel cs x rest last}, elem cs = some (x, rest) →
      skipBlanks rest = closing :: last → loop (fuel + 1) cs = some ([x], last))
    {gap after : List Char} (hgap : Blanks gap) (hafter : Blanks after) (text : α → List Char)
    {xs : List α} (hne : xs ≠ [])
    (h : ∀ x ∈ xs, ∀ blanks rest, Blanks blanks → Ends rest →
      elem (blanks ++ (text x ++ rest)) = some (x, rest))
    {before : List Char} (hbefore : Blanks before) {fuel : Nat} (hfuel : xs.length ≤ fuel)
    (rest : List Char) :
    loop fuel (before ++ (row gap (xs.map text) ++ (after ++ closing :: rest))) =
      some (xs, rest) := by
  induction xs generalizing before fuel with
  | nil => exact absurd rfl hne
  | cons x xs ih =>
    obtain _ | fuel := fuel
    · simp at hfuel
    have helem := h x List.mem_cons_self before
    cases xs with
    | nil =>
      rw [List.map_singleton, row, List.intercalate_singleton]
      exact hlast (helem _ hbefore (ends_of_blanks hafter (hends rest)))
        (skipBlanks_to hafter hclosing rest)
    | cons y ys =>
      have hnext := ih (by simp) (fun z hz => h z (List.mem_cons_of_mem x hz)) hgap
        (Nat.le_of_succ_le_succ hfuel)
      refine hmore ?_ (skipBlanks_cons (c := ',') rfl _) hnext
      have hfirst := helem (',' :: (gap ++ (row gap ((y :: ys).map text) ++
        (after ++ closing :: rest)))) hbefore (ends_of_head (by decide))
      simpa [row] using hfirst

end Row

section Brackets

variable {before gap after : List Char} (hbefore : Blanks before) (hgap : Blanks gap)
  (hafter : Blanks after)

include hbefore hgap hafter

/-- Items between brackets read as the list of what they read as. -/
theorem readsAs_array (text : Json → List Char) {items : List Json} (hne : items ≠ [])
    (h : ∀ j ∈ items, ReadsAs (text j) j) :
    ReadsAs ('[' :: (before ++ (row gap (items.map text) ++ (after ++ [']'])))) (.array items) := by
  refine readsAs_of_cons rfl (by decide) fun blanks rest fuel hblanks _ hfuel => ?_
  obtain ⟨hshort, hfew⟩ := length_le_row gap (items.map text)
  simp only [List.length_append, List.length_singleton, List.length_map] at hfuel hfew
  have hitems : readItems? (readValue? fuel) fuel
      ([] ++ (row gap (items.map text) ++ (after ++ ']' :: rest))) = some (items, rest) := by
    refine read_row (readValue? fuel) rfl (fun _ => ends_of_head (by decide)) ?_ ?_ hgap hafter
      text hne ?_ (by simp [Blanks]) (by omega) rest
    · intro fuel cs x rest more xs last helem hskip hloop
      simp [readItems?, helem, hskip, hloop]
    · intro fuel cs x rest last helem hskip
      simp [readItems?, helem, hskip]
    · intro j hj blanks rest hblanks hrest
      have hle := hshort (text j) (List.mem_map_of_mem hj)
      exact (h j hj).read blanks rest fuel hblanks hrest (by omega)
  obtain ⟨j, js, rfl⟩ := List.exists_cons_of_ne_nil hne
  obtain ⟨c, cs, hcons, hblank, hclosing⟩ := (h j List.mem_cons_self).head
  obtain ⟨cs', hrow, hskip⟩ :=
    skipBlanks_row hbefore gap hblank (js.map text) (after ++ ']' :: rest)
  rw [← hcons] at hrow hskip
  rw [List.map_cons, List.nil_append, hrow] at hitems
  simp [readValue?, skipBlanks_to hblanks (show isBlank '[' = false from rfl), hskip, hclosing,
    hitems]

/-- The text of a member whose value has the given text. -/
def memberText (gap : List Char) (text : Json → List Char) (member : Text × Json) : List Char :=
  (quoteText member.1).toList ++ ':' :: (gap ++ text member.2)

omit hbefore hgap hafter in
/-- A member of an object is read if its value is. -/
theorem readMember?_memberText {colon : List Char} (hcolon : Blanks colon)
    (text : Json → List Char) {member : Text × Json} (h : ReadsAs (text member.2) member.2)
    {blanks rest : List Char} (hblanks : Blanks blanks) (hrest : Ends rest) {fuel : Nat}
    (hfuel : (memberText colon text member).length ≤ fuel) :
    readMember? (readValue? fuel) (blanks ++ (memberText colon text member ++ rest)) =
      some (member, rest) := by
  obtain ⟨key, value⟩ := member
  obtain ⟨body, hbody, hread⟩ := readText?_quoteText key
  change ReadsAs (text value) value at h
  simp only [memberText, hbody, List.length_append, List.length_cons] at hfuel
  have hvalue := h.read colon rest fuel hcolon hrest (by omega)
  simp [readMember?, memberText, hbody, skipBlanks_to hblanks (show isBlank '"' = false from rfl),
    hread, skipBlanks_cons (show isBlank ':' = false from rfl), hvalue]

/-- Members between braces read as the record of what their values read as. -/
theorem readsAs_object {colon : List Char} (hcolon : Blanks colon) (text : Json → List Char)
    {members : List (Text × Json)} (hne : members ≠ [])
    (h : ∀ member ∈ members, ReadsAs (text member.2) member.2) :
    ReadsAs ('\x7b' :: (before ++ (row gap (members.map (memberText colon text)) ++
      (after ++ ['\x7d'])))) (.object members) := by
  refine readsAs_of_cons rfl (by decide) fun blanks rest fuel hblanks _ hfuel => ?_
  obtain ⟨hshort, hfew⟩ := length_le_row gap (members.map (memberText colon text))
  simp only [List.length_append, List.length_singleton, List.length_map] at hfuel hfew
  have hmembers : readMembers? (readValue? fuel) fuel
      ([] ++ (row gap (members.map (memberText colon text)) ++ (after ++ '\x7d' :: rest))) =
      some (members, rest) := by
    refine read_row (readMember? (readValue? fuel)) rfl (fun _ => ends_of_head (by decide)) ?_ ?_
      hgap hafter (memberText colon text) hne ?_ (by simp [Blanks]) (by omega) rest
    · intro fuel cs x rest more xs last helem hskip hloop
      simp [readMembers?, helem, hskip, hloop]
    · intro fuel cs x rest last helem hskip
      simp [readMembers?, helem, hskip]
    · intro member hmem blanks rest hblanks hrest
      have hle := hshort _ (List.mem_map_of_mem hmem)
      exact readMember?_memberText hcolon text (h member hmem) hblanks hrest (by omega)
  obtain ⟨⟨key, value⟩, others, rfl⟩ := List.exists_cons_of_ne_nil hne
  obtain ⟨body, hbody, -⟩ := readText?_quoteText key
  have hcons : memberText colon text (key, value) =
      '"' :: (body ++ ':' :: (colon ++ text value)) := by
    rw [memberText, hbody, List.cons_append]
  obtain ⟨cs', hrow, hskip⟩ := skipBlanks_row hbefore gap (show isBlank '"' = false from rfl)
    (others.map (memberText colon text)) (after ++ '\x7d' :: rest)
  rw [← hcons] at hrow hskip
  rw [List.map_cons, List.nil_append, hrow] at hmembers
  simp [readValue?, skipBlanks_to hblanks (show isBlank '\x7b' = false from rfl), hskip, hmembers]

end Brackets

/-- An array without items is read. -/
theorem readsAs_emptyArray : ReadsAs ['[', ']'] (.array []) := by
  refine readsAs_of_cons rfl (by decide) fun blanks rest fuel hblanks _ _ => ?_
  simp [readValue?, skipBlanks_to hblanks (show isBlank '[' = false from rfl),
    skipBlanks_cons (show isBlank ']' = false from rfl)]

/-- An object without members is read. -/
theorem readsAs_emptyObject : ReadsAs ['\x7b', '\x7d'] (.object []) := by
  refine readsAs_of_cons rfl (by decide) fun blanks rest fuel hblanks _ _ => ?_
  simp [readValue?, skipBlanks_to hblanks (show isBlank '\x7b' = false from rfl),
    skipBlanks_cons (show isBlank '\x7d' = false from rfl)]

/-- A text that reads as a document is the text of the document. -/
theorem ReadsAs.parse? {text : String} {j : Json} (h : ReadsAs text.toList j) :
    Json.parse? text = some j := by
  have hread := h.read [] [] (text.toList.length + 1) (by simp [Blanks]) (by simp [Ends]) (by omega)
  rw [List.nil_append, List.append_nil] at hread
  simp [Json.parse?, hread, skipBlanks]

end Json

end TypeRecovery
