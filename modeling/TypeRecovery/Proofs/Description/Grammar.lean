import Mathlib.Data.List.Induction
import Mathlib.Data.List.TakeDrop
import TypeRecovery.Description.TypeExpr
import TypeRecovery.Proofs.DataType.Construction

/-!
# The grammar of type expressions

An expression is the name of an atom followed by suffixes. The texts of the grammar are read from
the left: blanks, the atom, then each suffix with blanks before it, and blanks at the end. The
reader takes the suffixes off from the right, and it accepts exactly the texts of the grammar. What
they denote is the type of the atom with the suffixes applied from left to right.
-/

namespace TypeRecovery

namespace TypeExpr

variable {cs body lead trail : List Char} {n : Nat}

/-! ## Texts of the grammar -/

/-- White space only. -/
def Blanks (cs : List Char) : Prop := ∀ c ∈ cs, isBlank c = true

/-- No white space at the ends. -/
structure Trimmed (cs : List Char) : Prop where
  /-- The first character is no blank. -/
  first : ∀ c ∈ cs.head?, isBlank c = false
  /-- The last character is no blank. -/
  last : ∀ c ∈ cs.getLast?, isBlank c = false

/-- The text of an atom has no white space at its ends and does not end like a suffix. -/
structure AtomText (cs : List Char) : Prop extends Trimmed cs where
  /-- The last character is not that of a suffix. -/
  noSuffix : ∀ c ∈ cs.getLast?, c ≠ '*' ∧ c ≠ ']'

instance (cs : List Char) : Decidable (AtomText cs) :=
  decidable_of_iff (cs.head?.all (!isBlank ·) = true ∧
      cs.getLast?.all (fun c => !isBlank c && c != '*' && c != ']') = true) <| by
    simp only [Option.all_eq_true, Bool.and_eq_true, Bool.not_eq_true', bne_iff_ne]
    exact ⟨fun h => ⟨⟨h.1, fun c hc => (h.2 c hc).1.1⟩,
        fun c hc => ⟨(h.2 c hc).1.2, (h.2 c hc).2⟩⟩,
      fun h => ⟨h.first, fun c hc => ⟨⟨h.last c hc, (h.noSuffix c hc).1⟩, (h.noSuffix c hc).2⟩⟩⟩

/-- Decimal digits, with an optional plus sign before them, and the 32-bit number that they stand
for. -/
def Numeral (cs : List Char) (n : Nat) : Prop :=
  ∃ digits, (cs = digits ∨ cs = '+' :: digits) ∧ digits ≠ [] ∧ (∀ c ∈ digits, c.isDigit = true) ∧
    Nat.ofDigitChars 10 digits 0 = n ∧ n < UInt32.size

/-- What can follow a type. -/
inductive Suffix where
  /-- A pointer to the type. -/
  | star
  /-- An array of that many elements of the type. -/
  | bracket (count : Nat)
  deriving DecidableEq, Repr

/-- The spellings of a suffix. -/
inductive Suffix.Spells : Suffix → List Char → Prop where
  | star : Spells .star ['*']
  | bracket {before digits after : List Char} {count : Nat} : Blanks before →
      Numeral digits count → Blanks after →
      Spells (.bracket count) ('[' :: (before ++ digits ++ after) ++ [']'])

/-- The spellings of a row of suffixes, with blanks before each of them. -/
inductive SuffixesText : List Suffix → List Char → Prop where
  | nil : SuffixesText [] []
  | cons {suffix : Suffix} {rest : List Suffix} {gap text more : List Char} : Blanks gap →
      suffix.Spells text → SuffixesText rest more →
      SuffixesText (suffix :: rest) (gap ++ text ++ more)

/-- A text spells an atom with suffixes, up to white space at the ends. -/
def Spells (cs atom : List Char) (suffixes : List Suffix) : Prop :=
  ∃ lead row trail, Blanks lead ∧ AtomText atom ∧ SuffixesText suffixes row ∧ Blanks trail ∧
    cs = lead ++ atom ++ row ++ trail

/-! ## White space -/

/-- Nothing is blank. -/
theorem blanks_nil : Blanks [] := by
  intro c hc
  cases hc

/-- Blanks may follow one another. -/
theorem Blanks.append {ds : List Char} (h : Blanks cs) (h' : Blanks ds) : Blanks (cs ++ ds) :=
  fun c hc => (List.mem_append.mp hc).elim (h c) (h' c)

private theorem blanks_takeWhile (cs : List Char) : Blanks (cs.takeWhile isBlank) :=
  List.all_eq_true.mp List.all_takeWhile

private theorem isBlank_head?_dropWhile {c : Char} (h : c ∈ (cs.dropWhile isBlank).head?) :
    isBlank c = false := by
  have hstop := List.head?_dropWhile_not isBlank cs
  rwa [h] at hstop

private theorem trim_append_left (h : Blanks lead) (cs : List Char) :
    trim (lead ++ cs) = trim cs := by
  rw [trim, trim, List.dropWhile_append_of_pos h]

private theorem trim_dropWhile (cs : List Char) : trim (cs.dropWhile isBlank) = trim cs := by
  conv_rhs => rw [← List.takeWhile_append_dropWhile (p := isBlank) (l := cs)]
  exact (trim_append_left (blanks_takeWhile cs) _).symm

/-- Trimming takes off white space at both ends. -/
theorem exists_trim (cs : List Char) :
    ∃ lead trail, Blanks lead ∧ Blanks trail ∧ cs = lead ++ trim cs ++ trail := by
  refine ⟨cs.takeWhile isBlank, ((cs.dropWhile isBlank).reverse.takeWhile isBlank).reverse,
    blanks_takeWhile cs, fun c hc => blanks_takeWhile _ c (List.mem_reverse.mp hc), ?_⟩
  rw [trim, List.append_assoc, ← List.reverse_append, List.takeWhile_append_dropWhile,
    List.reverse_reverse, List.takeWhile_append_dropWhile]

/-- Trimming leaves no white space at the ends. -/
theorem trimmed_trim (cs : List Char) : Trimmed (trim cs) where
  first c hc := by
    -- what is left starts where the blanks in front end
    have hprefix : trim cs <+: cs.dropWhile isBlank := by
      have hsuffix := List.dropWhile_suffix (l := (cs.dropWhile isBlank).reverse) isBlank
      rwa [← List.reverse_prefix, List.reverse_reverse] at hsuffix
    obtain ⟨rest, hrest⟩ := hprefix
    have hfirst : c ∈ (cs.dropWhile isBlank).head? := by
      rw [← hrest, List.head?_append, hc]
      rfl
    exact isBlank_head?_dropWhile hfirst
  last c hc := by
    rw [trim, List.getLast?_reverse] at hc
    exact isBlank_head?_dropWhile hc

/-- Trimming takes off white space and nothing else. -/
theorem trim_of_trimmed (hlead : Blanks lead) (hbody : Trimmed body) (htrail : Blanks trail) :
    trim (lead ++ body ++ trail) = body := by
  have hkeep {ds : List Char} (h : ∀ c ∈ ds.head?, isBlank c = false) :
      ds.dropWhile isBlank = ds := by
    cases ds with
    | nil => rfl
    | cons c ds => exact List.dropWhile_cons_of_neg (by simp [h c rfl])
  have htrail' : Blanks trail.reverse := fun c hc => htrail c (List.mem_reverse.mp hc)
  rw [List.append_assoc, trim_append_left hlead, trim]
  cases body with
  | nil =>
    have hnone : trail.dropWhile isBlank = [] := by
      rw [← List.append_nil trail, List.dropWhile_append_of_pos htrail]
      rfl
    rw [List.nil_append, hnone]
    rfl
  | cons c rest =>
    have hfirst : ∀ d ∈ (c :: rest ++ trail).head?, isBlank d = false := hbody.first
    have hlast : ∀ d ∈ (c :: rest).reverse.head?, isBlank d = false := by
      rw [List.head?_reverse]
      exact hbody.last
    rw [hkeep hfirst, List.reverse_append, List.dropWhile_append_of_pos htrail', hkeep hlast,
      List.reverse_reverse]

/-- A text that ends in a character other than white space keeps this end. -/
theorem trim_append_cons {c : Char} (hc : isBlank c = false) (htrail : Blanks trail) :
    trim (cs ++ c :: trail) = cs.dropWhile isBlank ++ [c] := by
  have hbody : Trimmed (cs.dropWhile isBlank ++ [c]) := by
    refine ⟨fun d hd => ?_, fun d hd => ?_⟩
    · rw [List.head?_append] at hd
      rcases Option.or_eq_some_iff.mp hd with hfirst | ⟨-, honly⟩
      · exact isBlank_head?_dropWhile hfirst
      · cases honly
        exact hc
    · rw [List.getLast?_concat] at hd
      cases hd
      exact hc
  have hsplit : cs ++ c :: trail =
      cs.takeWhile isBlank ++ (cs.dropWhile isBlank ++ [c]) ++ trail := by
    rw [← List.append_assoc, List.takeWhile_append_dropWhile, List.append_assoc]
    rfl
  rw [hsplit, trim_of_trimmed (blanks_takeWhile cs) hbody htrail]

/-! ## Numbers -/

/-- A count is read exactly if it is a numeral. -/
theorem count?_eq_some_iff : count? cs = some n ↔ Numeral cs n := by
  have hdigits (digits : List Char) : (Scan.digits? digits).filter (· < UInt32.size) = some n ↔
      digits ≠ [] ∧ (∀ c ∈ digits, c.isDigit = true) ∧ Nat.ofDigitChars 10 digits 0 = n ∧
        n < UInt32.size := by
    rw [Option.filter_eq_some_iff, Scan.digits?, Option.ite_none_left_eq_some, decide_eq_true_eq]
    simp only [Bool.or_eq_true, List.isEmpty_iff, Bool.not_eq_true', not_or, Bool.not_eq_false,
      List.all_eq_true, Option.some.injEq, and_assoc]
    rfl
  unfold count?
  constructor
  · intro h
    split at h
    · rename_i rest
      exact ⟨rest, Or.inr rfl, (hdigits rest).mp h⟩
    · exact ⟨cs, Or.inl rfl, (hdigits cs).mp h⟩
  · rintro ⟨digits, hspelled, hok⟩
    rcases hspelled with rfl | rfl
    · split
      · -- a plus sign is no digit
        rename_i rest
        exact absurd (hok.2.1 '+' List.mem_cons_self) (by decide)
      · exact (hdigits cs).mpr hok
    · exact (hdigits digits).mpr hok

/-- A number has neither white space nor the characters of a suffix in it. -/
theorem Numeral.mem (h : Numeral cs n) {c : Char} (hc : c ∈ cs) :
    isBlank c = false ∧ c ≠ '[' ∧ c ≠ ']' ∧ c ≠ '*' := by
  obtain ⟨digits, hspelled, -, hdigits, -⟩ := h
  have hdigit : c.isDigit = true → isBlank c = false ∧ c ≠ '[' ∧ c ≠ ']' ∧ c ≠ '*' := by
    intro hd
    have hrange : 48 ≤ c.toNat ∧ c.toNat ≤ 57 := Char.isDigit_iff_toNat.mp hd
    refine ⟨?_, ?_, ?_, ?_⟩
    · simp only [isBlank, Bool.or_eq_false_iff, Bool.and_eq_false_iff, decide_eq_false_iff_not]
      omega
    all_goals
      rintro rfl
      exact absurd hd (by decide)
  rcases hspelled with rfl | rfl
  · exact hdigit (hdigits c hc)
  · rcases List.mem_cons.mp hc with rfl | hmem
    · decide
    · exact hdigit (hdigits c hmem)

/-- A numeral has a digit. -/
theorem Numeral.ne_nil (h : Numeral cs n) : cs ≠ [] := by
  obtain ⟨digits, rfl | rfl, hne, -⟩ := h
  · exact hne
  · exact List.cons_ne_nil _ _

private theorem Numeral.trimmed (h : Numeral cs n) : Trimmed cs :=
  ⟨fun _ hc => (h.mem (List.mem_of_head? hc)).1, fun _ hc => (h.mem (List.mem_of_getLast? hc)).1⟩

/-! ## Rows of suffixes -/

section Rows

variable {atom gap row text : List Char} {suffix : Suffix} {suffixes : List Suffix}

/-- A suffix may be added at the end. -/
theorem SuffixesText.concat (h : SuffixesText suffixes row) (hgap : Blanks gap)
    (htext : suffix.Spells text) : SuffixesText (suffixes ++ [suffix]) (row ++ gap ++ text) := by
  induction h with
  | nil =>
    rw [List.nil_append, List.nil_append, ← List.append_nil (gap ++ text)]
    exact .cons hgap htext .nil
  | cons hfirst hspelled _ ih =>
    rw [List.append_assoc (_ ++ _), List.append_assoc (_ ++ _), ← List.append_assoc _ gap]
    exact .cons hfirst hspelled ih

/-- A row of suffixes ends with its last suffix. -/
theorem SuffixesText.of_concat (h : SuffixesText (suffixes ++ [suffix]) row) :
    ∃ before gap text, SuffixesText suffixes before ∧ Blanks gap ∧ suffix.Spells text ∧
      row = before ++ gap ++ text := by
  induction suffixes generalizing row with
  | nil =>
    rw [List.nil_append] at h
    obtain @⟨⟩ | ⟨hgap, htext, ⟨⟩⟩ := h
    exact ⟨[], _, _, .nil, hgap, htext, by rw [List.append_nil, List.nil_append]⟩
  | cons first suffixes ih =>
    rw [List.cons_append] at h
    obtain @⟨⟩ | ⟨hfirst, hspelled, hrest⟩ := h
    obtain ⟨before, gap, text, hbefore, hgap, htext, rfl⟩ := ih hrest
    refine ⟨_, gap, text, .cons hfirst hspelled hbefore, hgap, htext, ?_⟩
    simp only [List.append_assoc]

/-- Each suffix takes a character. -/
theorem SuffixesText.length_le (h : SuffixesText suffixes row) : suffixes.length ≤ row.length := by
  induction h with
  | nil => exact Nat.le_refl 0
  | @cons suffix _ gap text _ _ htext _ ih =>
    have hpos : 0 < text.length := by cases htext <;> simp
    simp only [List.length_append, List.length_cons]
    omega

/-- A suffix may be added to a text at the end. -/
theorem Spells.concat (h : Spells cs atom suffixes) (hgap : Blanks gap)
    (htext : suffix.Spells text) : Spells (cs ++ gap ++ text) atom (suffixes ++ [suffix]) := by
  obtain ⟨lead, row, trail, hlead, hatom, hrow, htrail, rfl⟩ := h
  refine ⟨lead, row ++ (trail ++ gap) ++ text, [], hlead, hatom,
    hrow.concat (htrail.append hgap) htext, blanks_nil, ?_⟩
  simp only [List.append_assoc, List.append_nil]

/-- Blanks around a text do not matter. -/
theorem Spells.surround (h : Spells cs atom suffixes) (hlead : Blanks lead)
    (htrail : Blanks trail) : Spells (lead ++ cs ++ trail) atom suffixes := by
  obtain ⟨lead', row, trail', hlead', hatom, hrow, htrail', rfl⟩ := h
  refine ⟨lead ++ lead', row, trail' ++ trail, hlead.append hlead', hatom, hrow,
    htrail'.append htrail, ?_⟩
  simp only [List.append_assoc]

/-- A text with a last suffix is a text without it, followed by a spelling of the suffix. -/
theorem Spells.of_concat (h : Spells cs atom (suffixes ++ [suffix])) :
    ∃ before text trail, Spells before atom suffixes ∧ suffix.Spells text ∧ Blanks trail ∧
      cs = before ++ text ++ trail := by
  obtain ⟨lead, row, trail, hlead, hatom, hrow, htrail, rfl⟩ := h
  obtain ⟨before, gap, text, hbefore, hgap, htext, rfl⟩ := hrow.of_concat
  refine ⟨lead ++ atom ++ before ++ gap, text, trail,
    ⟨lead, before, gap, hlead, hatom, hbefore, hgap, rfl⟩, htext, htrail, ?_⟩
  simp only [List.append_assoc]

end Rows

/-! ## Reading -/

/-- The expression of a type followed by a suffix. -/
def Suffix.wrap (e : TypeExpr) : Suffix → TypeExpr
  | star => pointer e
  | bracket count => array e count

/-- The expression of an atom followed by suffixes. -/
def ofSuffixes (name : List Char) (suffixes : List Suffix) : TypeExpr :=
  suffixes.foldl Suffix.wrap (atom (String.ofList name))

private theorem ofSuffixes_concat (name : List Char) (suffixes : List Suffix) (suffix : Suffix) :
    ofSuffixes name (suffixes ++ [suffix]) = suffix.wrap (ofSuffixes name suffixes) := by
  rw [ofSuffixes, List.foldl_append]
  rfl

private theorem readSuffixes_dropWhile (fuel : Nat) (cs : List Char) :
    readSuffixes (fuel + 1) (cs.dropWhile isBlank) = readSuffixes (fuel + 1) cs := by
  rw [readSuffixes, readSuffixes, trim_dropWhile]

/-- The atom is what is left when all suffixes are read. -/
theorem readSuffixes_atom {name : List Char} (fuel : Nat) (hlead : Blanks lead)
    (hname : AtomText name) (htrail : Blanks trail) :
    readSuffixes (fuel + 1) (lead ++ name ++ trail) = .ok (atom (String.ofList name)) := by
  rw [readSuffixes, trim_of_trimmed hlead hname.toTrimmed htrail]
  have hlast := hname.noSuffix
  rw [← List.head?_reverse] at hlast
  split
  · rename_i hstar
    rw [hstar] at hlast
    exact absurd rfl (hlast '*' rfl).1
  · rename_i hbracket
    rw [hbracket] at hlast
    exact absurd rfl (hlast ']' rfl).2
  · rfl

/-- A star at the end is read as a pointer. -/
theorem readSuffixes_star (fuel : Nat) (htrail : Blanks trail) :
    readSuffixes (fuel + 2) (cs ++ '*' :: trail) = (readSuffixes (fuel + 1) cs).map pointer := by
  rw [readSuffixes, trim_append_cons (by decide) htrail, ← readSuffixes_dropWhile fuel cs]
  simp only [List.reverse_append, List.reverse_singleton, List.singleton_append,
    List.reverse_reverse]

/-- The count of an array stands between the last brackets. -/
theorem readSuffixes_bracket {before digits after : List Char} (fuel : Nat)
    (hbefore : Blanks before) (hdigits : Numeral digits n) (hafter : Blanks after)
    (htrail : Blanks trail) :
    readSuffixes (fuel + 2) (cs ++ ('[' :: (before ++ digits ++ after) ++ [']']) ++ trail) =
      (readSuffixes (fuel + 1) cs).map (array · n) := by
  have hcount : ∀ c ∈ (before ++ digits ++ after).reverse, c ≠ '[' := by
    intro c hc
    rcases List.mem_append.mp (List.mem_reverse.mp hc) with hc | hc
    · rcases List.mem_append.mp hc with hc | hc
      · rintro rfl
        exact absurd (hbefore _ hc) (by decide)
      · exact (hdigits.mem hc).2.1
    · rintro rfl
      exact absurd (hafter _ hc) (by decide)
  have hspan (element : List Char) :
      ((before ++ digits ++ after).reverse ++ '[' :: element).span (· ≠ '[') =
        ((before ++ digits ++ after).reverse, '[' :: element) := by
    have hall : ∀ c ∈ (before ++ digits ++ after).reverse, decide (c ≠ '[') = true :=
      fun c hc => decide_eq_true (hcount c hc)
    rw [List.span_eq_takeWhile_dropWhile, List.takeWhile_append_of_pos hall,
      List.dropWhile_append_of_pos hall, List.takeWhile_cons_of_neg (by decide),
      List.dropWhile_cons_of_neg (by decide), List.append_nil]
  have htext : cs ++ ('[' :: (before ++ digits ++ after) ++ [']']) ++ trail =
      (cs ++ '[' :: (before ++ digits ++ after)) ++ ']' :: trail := by
    simp only [List.append_assoc, List.cons_append, List.nil_append]
  have hdrop : (cs ++ '[' :: (before ++ digits ++ after)).dropWhile isBlank =
      cs.dropWhile isBlank ++ '[' :: (before ++ digits ++ after) := by
    rw [List.dropWhile_append]
    split
    · rename_i hempty
      rw [List.isEmpty_iff.mp hempty]
      rfl
    · rfl
  rw [htext, readSuffixes, trim_append_cons (by decide) htrail, hdrop,
    ← readSuffixes_dropWhile fuel cs, List.reverse_append, List.reverse_singleton,
    List.singleton_append, List.reverse_append, List.reverse_cons, List.append_assoc,
    List.singleton_append]
  simp only [hspan, List.reverse_reverse, trim_of_trimmed hbefore hdigits.trimmed hafter,
    count?_eq_some_iff.mpr hdigits]

/-- Every text of the grammar is read. -/
theorem Spells.read {name : List Char} {suffixes : List Suffix} (h : Spells cs name suffixes)
    {fuel : Nat} (hfuel : suffixes.length < fuel) :
    readSuffixes fuel cs = .ok (ofSuffixes name suffixes) := by
  induction suffixes using List.reverseRecOn generalizing cs fuel with
  | nil =>
    obtain ⟨lead, row, trail, hlead, hname, ⟨⟩, htrail, rfl⟩ := h
    obtain ⟨fuel, rfl⟩ := Nat.exists_eq_add_of_lt hfuel
    rw [List.append_nil]
    exact readSuffixes_atom _ hlead hname htrail
  | append_singleton suffixes suffix ih =>
    obtain ⟨before, text, trail, hbefore, htext, htrail, rfl⟩ := h.of_concat
    rw [List.length_append, List.length_singleton] at hfuel
    obtain ⟨fuel, rfl⟩ : ∃ k, fuel = k + 2 := ⟨fuel - 2, by omega⟩
    rw [ofSuffixes_concat]
    cases htext with
    | star =>
      rw [List.append_assoc, List.singleton_append, readSuffixes_star fuel htrail,
        ih hbefore (by omega)]
      rfl
    | bracket hblanks hdigits hblanks' =>
      rw [readSuffixes_bracket fuel hblanks hdigits hblanks' htrail, ih hbefore (by omega)]
      rfl

private theorem map_eq_ok {α β : Type} {x : Except GraphError α} {f : α → β} {b : β}
    (h : x.map f = .ok b) : ∃ a, x = .ok a ∧ f a = b := by
  cases x with
  | ok a => exact ⟨a, rfl, Except.ok.inj h⟩
  | error e => cases h

/-- The text before the brackets, the opening bracket and the count in reverse. -/
theorem exists_of_dropWhile {rest element : List Char} {c : Char}
    (h : rest.dropWhile (· ≠ '[') = c :: element) :
    rest = rest.takeWhile (· ≠ '[') ++ '[' :: element := by
  have hstop := List.head?_dropWhile_not (fun c => decide (c ≠ '[')) rest
  rw [h] at hstop
  obtain rfl : c = '[' := by simpa using hstop
  conv_lhs => rw [← List.takeWhile_append_dropWhile (p := fun c => decide (c ≠ '[')) (l := rest), h]

/-- What is read is a text of the grammar. -/
theorem exists_spells {fuel : Nat} {e : TypeExpr} (h : readSuffixes fuel cs = .ok e) :
    ∃ name suffixes, Spells cs name suffixes ∧ e = ofSuffixes name suffixes := by
  induction fuel generalizing cs e with
  | zero => cases h
  | succ fuel ih =>
    obtain ⟨lead, trail, hlead, htrail, hcs⟩ := exists_trim cs
    have htrimmed := trimmed_trim cs
    rw [readSuffixes] at h
    generalize trim cs = body at h hcs htrimmed
    subst hcs
    suffices hbody : ∃ name suffixes, Spells body name suffixes ∧ e = ofSuffixes name suffixes by
      obtain ⟨name, suffixes, hspells, rfl⟩ := hbody
      exact ⟨name, suffixes, hspells.surround hlead htrail, rfl⟩
    split at h
    · rename_i rest hstar
      obtain ⟨inner, hinner, rfl⟩ := map_eq_ok h
      obtain ⟨name, suffixes, hspells, rfl⟩ := ih hinner
      refine ⟨name, suffixes ++ [Suffix.star], ?_, (ofSuffixes_concat name suffixes .star).symm⟩
      rw [List.reverse_eq_cons_iff.mp hstar, ← List.append_nil rest.reverse]
      exact hspells.concat blanks_nil .star
    · rename_i rest hbracket
      rw [List.span_eq_takeWhile_dropWhile] at h
      cases hdrop : rest.dropWhile (· ≠ '[') with
      | nil =>
        rw [hdrop] at h
        cases h
      | cons c element =>
        rw [hdrop] at h
        dsimp only at h
        split at h
        · cases h
        · rename_i n hcount
          obtain ⟨inner, hinner, rfl⟩ := map_eq_ok h
          obtain ⟨name, suffixes, hspells, rfl⟩ := ih hinner
          obtain ⟨before, after, hbefore, hafter, htext⟩ :=
            exists_trim (rest.takeWhile (· ≠ '[')).reverse
          refine ⟨name, suffixes ++ [Suffix.bracket n], ?_,
            (ofSuffixes_concat name suffixes (.bracket n)).symm⟩
          rw [List.reverse_eq_cons_iff.mp hbracket, exists_of_dropWhile hdrop, List.reverse_append,
            List.reverse_cons, htext, List.append_assoc element.reverse, List.append_assoc,
            ← List.append_nil element.reverse]
          exact hspells.concat blanks_nil (.bracket hbefore (count?_eq_some_iff.mp hcount) hafter)
    · rename_i hstar hbracket
      cases h
      have hlast : ∀ c ∈ body.getLast?, c ≠ '*' ∧ c ≠ ']' := by
        intro c hc
        rw [← List.head?_reverse] at hc
        obtain ⟨rest, hrest⟩ := List.head?_eq_some_iff.mp hc
        exact ⟨fun he => hstar rest (he ▸ hrest), fun he => hbracket rest (he ▸ hrest)⟩
      refine ⟨body, [], ⟨[], [], [], blanks_nil, ⟨htrimmed, hlast⟩, .nil, blanks_nil, ?_⟩, rfl⟩
      rw [List.nil_append, List.append_nil, List.append_nil]

/-- The reader accepts exactly the texts of the grammar. -/
theorem parse_eq_ok_iff {text : String} {e : TypeExpr} : parse text = .ok e ↔
    ∃ name suffixes, Spells text.toList name suffixes ∧ e = ofSuffixes name suffixes := by
  refine ⟨exists_spells, ?_⟩
  rintro ⟨name, suffixes, hspells, rfl⟩
  have hshort : suffixes.length < text.length + 1 := by
    obtain ⟨lead, row, trail, -, -, hrow, -, htext⟩ := hspells
    have hle := hrow.length_le
    rw [← String.length_toList, htext]
    simp only [List.length_append]
    omega
  exact hspells.read hshort

/-! ## Built-in names -/

/-- The word that the size of an atom follows in its name. -/
def sizedWord? : Atom → Option String
  | .unknown => some "undefined"
  | .int => some "int"
  | .uint => some "uint"
  | .bool => some "bool"
  | .float => some "float"
  | .code => none

/-- A name such as `int4`: the word of an atom followed by its size. -/
def SizedName (name : String) (size : Nat) (a : Atom) : Prop :=
  ∃ word digits, sizedWord? a = some word ∧ name = word ++ String.ofList digits ∧
    Numeral digits size ∧ 0 < size

/-- The names that mean a type without being declared. -/
inductive BuiltIn (names : Names) (types : TypeTable) : String → Interned → Prop where
  | void : BuiltIn names types "void" types.void
  | code : BuiltIn names types "code" (types.atom 1 .code)
  | spacebase : BuiltIn names types "spacebase" (types.spacebase names.stack names.stackName)
  | sized {name : String} {size : Nat} {a : Atom} : SizedName name size a →
      BuiltIn names types name (types.atom size a)

/-- The type that the name of an atom means: declared names win over built-in ones. -/
inductive AtomType (names : Names) (types : TypeTable) (name : String) : Interned → Prop where
  | declared {id : TypeId} : names.declared.lookup name = some id →
      AtomType names types name ⟨id, types⟩
  | builtIn {t : Interned} : names.declared.lookup name = none → BuiltIn names types name t →
      AtomType names types name t

private theorem mem_sizedWords_iff {word : String} {a : Atom} :
    (word, a) ∈ sizedWords ↔ sizedWord? a = some word := by
  cases a <;> simp [sizedWords, sizedWord?, eq_comm]

/-- No word of an atom is the start of another one. -/
theorem eq_of_sizedWords : ∀ x ∈ sizedWords, ∀ y ∈ sizedWords,
    x.1.toList <+: y.1.toList → x = y := by
  simp [sizedWords]

private theorem afterWord?_eq_some_iff {word rest : List Char} :
    Scan.afterWord? word cs = some rest ↔ cs = word ++ rest := by
  fun_induction Scan.afterWord? word cs with
  | case1 cs => simp
  | case2 w word => simp
  | case3 word c cs ih => simpa using ih
  | case4 w word c cs hne => simp [Ne.symm hne]

section SizedNames

variable {name : String} {size size' : Nat} {a b : Atom}

/-- A name with a size means one atom. -/
theorem SizedName.unique (h : SizedName name size a) (h' : SizedName name size' b) :
    size = size' ∧ a = b := by
  obtain ⟨word, digits, hword, rfl, hdigits, -⟩ := h
  obtain ⟨word', digits', hword', htext, hdigits', -⟩ := h'
  replace htext := congrArg String.toList htext
  rw [String.toList_append, String.toList_append, String.toList_ofList,
    String.toList_ofList] at htext
  have hmem := mem_sizedWords_iff.mpr hword
  have hmem' := mem_sizedWords_iff.mpr hword'
  -- of two words at the start of one name, one is the start of the other
  have hsame : (word, a) = (word', b) := by
    rcases List.prefix_or_prefix_of_prefix (List.prefix_append word.toList digits)
      (htext ▸ List.prefix_append word'.toList digits') with hle | hle
    · exact eq_of_sizedWords _ hmem _ hmem' hle
    · exact (eq_of_sizedWords _ hmem' _ hmem hle).symm
  cases hsame
  rw [List.append_cancel_left htext] at hdigits
  refine ⟨Option.some.inj ?_, rfl⟩
  rw [← count?_eq_some_iff.mpr hdigits, count?_eq_some_iff.mpr hdigits']

private theorem SizedName.of_sizedAtom? (h : sizedAtom? name = some (size, a)) :
    SizedName name size a := by
  obtain ⟨⟨word, b⟩, hmem, hreads⟩ := List.exists_of_findSome?_eq_some h
  obtain ⟨digits, hname, hrest⟩ := Option.bind_eq_some_iff.mp hreads
  obtain ⟨n, hn, hpair⟩ := Option.map_eq_some_iff.mp hrest
  obtain ⟨hcount, hpos⟩ := Option.filter_eq_some_iff.mp hn
  cases hpair
  refine ⟨word, digits, mem_sizedWords_iff.mp hmem, String.toList_injective ?_,
    count?_eq_some_iff.mp hcount, of_decide_eq_true hpos⟩
  rw [afterWord?_eq_some_iff.mp hname, String.toList_append, String.toList_ofList]

/-- An atom with a size is recognized exactly by its word and its number. -/
theorem sizedAtom?_eq_some_iff : sizedAtom? name = some (size, a) ↔ SizedName name size a := by
  refine ⟨SizedName.of_sizedAtom?, fun h => ?_⟩
  cases hfound : sizedAtom? name with
  | some found =>
    obtain ⟨rfl, rfl⟩ := (SizedName.of_sizedAtom? hfound).unique h
    rfl
  | none =>
    obtain ⟨word, digits, hword, rfl, hdigits, hpos⟩ := h
    have hreads := List.findSome?_eq_none_iff.mp hfound _ (mem_sizedWords_iff.mpr hword)
    have hrest : Scan.afterWord? word.toList (word ++ String.ofList digits).toList = some digits :=
      afterWord?_eq_some_iff.mpr (by rw [String.toList_append, String.toList_ofList])
    rw [hrest, Option.bind_some, count?_eq_some_iff.mpr hdigits] at hreads
    simp [Nat.pos_iff_ne_zero.mp hpos] at hreads

private theorem SizedName.ne_word (h : SizedName name size a) :
    name ≠ "void" ∧ name ≠ "code" ∧ name ≠ "spacebase" := by
  have hread := sizedAtom?_eq_some_iff.mpr h
  refine ⟨?_, ?_, ?_⟩ <;> (rintro rfl; cases hread)

end SizedNames

/-! ## What a text denotes -/

variable {names : Names} {types : TypeTable}

/-- A name is resolved exactly if it means a type. -/
theorem resolveName_eq_ok_iff {name : String} {t : Interned} :
    resolveName names types name = .ok t ↔ AtomType names types name t := by
  constructor
  · intro h
    rw [resolveName] at h
    split at h
    · rename_i id hid
      cases h
      exact .declared hid
    · rename_i hnone
      refine .builtIn hnone ?_
      split_ifs at h with hvoid hcode hspace
      · cases h
        exact hvoid ▸ .void
      · cases h
        exact hcode ▸ .code
      · cases h
        exact hspace ▸ .spacebase
      · split at h
        · rename_i size a hsized
          cases h
          exact .sized (sizedAtom?_eq_some_iff.mp hsized)
        · cases h
  · intro h
    rw [resolveName]
    cases h with
    | declared hid => rw [hid]
    | builtIn hnone hbuiltIn =>
      rw [hnone]
      cases hbuiltIn with
      | void => rfl
      | code => rfl
      | spacebase => rfl
      | sized hsized =>
        obtain ⟨hvoid, hcode, hspace⟩ := hsized.ne_word
        simp only [if_neg hvoid, if_neg hcode, if_neg hspace, sizedAtom?_eq_some_iff.mpr hsized]

/-- The type that a suffix makes of the type before it. An array has elements, its elements have
bytes, and its size fits 32 bits. -/
def Suffix.apply (t : Interned) : Suffix → Option Interned
  | star => some (t.table.pointer t.id 1)
  | bracket count =>
    let size := t.table.size t.id
    if 0 < count ∧ 0 < size ∧ size * count < UInt32.size then
      some (t.table.intern ⟨t.table.name t.id ++ "[" ++ toString count ++ "]", size * count,
        .array, .array t.id count, rfl⟩)
    else none

/-- An array is built exactly if the suffix applies. -/
theorem tryArray_eq_iff {t result : Interned} {count : Nat} :
    t.table.tryArray t.id count = result.answer ↔
      Suffix.apply t (.bracket count) = some result := by
  simp only [TypeTable.tryArray, Suffix.apply, Option.ite_none_right_eq_some, Option.some.injEq]
  split_ifs with hempty hfits
  · exact ⟨fun h => (by cases h), fun h => by omega⟩
  · rw [Interned.answer_inj]
    exact ⟨fun h => ⟨by omega, h⟩, fun h => h.2⟩
  · exact ⟨fun h => (by cases h), fun h => absurd h.1.2.2 hfits⟩

private theorem resolve_wrap_eq_ok_iff {e : TypeExpr} {suffix : Suffix} {result : Interned} :
    resolve names types (suffix.wrap e) = .ok result ↔
      ∃ t, resolve names types e = .ok t ∧ suffix.apply t = some result := by
  cases suffix with
  | star =>
    rw [Suffix.wrap, resolve]
    cases resolve names types e with
    | ok t => simp [Suffix.apply]
    | error e => simp
  | bracket count =>
    rw [Suffix.wrap, resolve]
    cases resolve names types e with
    | ok t => simp [TypeTable.array, Answer.interned_eq_ok_iff, tryArray_eq_iff]
    | error e => simp

/-- An expression is resolved exactly if its atom means a type and its suffixes apply. -/
theorem resolve_ofSuffixes_eq_ok_iff {name : List Char} {suffixes : List Suffix}
    {result : Interned} : resolve names types (ofSuffixes name suffixes) = .ok result ↔
      ∃ start, AtomType names types (String.ofList name) start ∧
        suffixes.foldlM Suffix.apply start = some result := by
  induction suffixes using List.reverseRecOn generalizing result with
  | nil =>
    rw [ofSuffixes, List.foldl_nil, resolve, resolveName_eq_ok_iff]
    simp
  | append_singleton suffixes suffix ih =>
    simp only [ofSuffixes_concat, resolve_wrap_eq_ok_iff, ih, List.foldlM_append, List.foldlM_cons,
      List.foldlM_nil, bind_pure, Option.bind_eq_bind, Option.bind_eq_some_iff]
    constructor
    · rintro ⟨t, ⟨start, hstart, ht⟩, happly⟩
      exact ⟨start, hstart, t, ht, happly⟩
    · rintro ⟨start, hstart, t, ht, happly⟩
      exact ⟨t, ⟨start, hstart, ht⟩, happly⟩

/-- A text denotes a type exactly if it is one of the grammar, its atom means a type and every
suffix applies to the type before it. The type denoted is that of the atom with the suffixes
applied from left to right. -/
theorem denote_eq_ok_iff_spells (names : Names) (types : TypeTable) (text : String)
    (result : Interned) : denote names types text = .ok result ↔
      ∃ atom suffixes start, Spells text.toList atom suffixes ∧
        AtomType names types (String.ofList atom) start ∧
        suffixes.foldlM Suffix.apply start = some result := by
  constructor
  · intro h
    rw [denote] at h
    split at h
    · rename_i e he
      obtain ⟨atom, suffixes, hspells, rfl⟩ := parse_eq_ok_iff.mp he
      obtain ⟨start, hstart, happly⟩ := resolve_ofSuffixes_eq_ok_iff.mp h
      exact ⟨atom, suffixes, start, hspells, hstart, happly⟩
    · cases h
  · rintro ⟨atom, suffixes, start, hspells, hstart, happly⟩
    rw [denote, parse_eq_ok_iff.mpr ⟨atom, suffixes, hspells, rfl⟩]
    exact resolve_ofSuffixes_eq_ok_iff.mpr ⟨start, hstart, happly⟩

/-- Blanks and a sign mean nothing: the text denotes three pointers to integers. -/
example : (denote ⟨[], 2, "stack"⟩ (TypeTable.empty 8) " int4 *[ +3 ]").map
    (fun t => (t.id, t.table.types.toList.map fun entry => (entry.name, entry.size, entry.shape))) =
      .ok (2, [("int4", 4, .atom .int), ("int4 *", 8, .pointer 0 1),
        ("int4 *[3]", 24, .array 1 3)]) := by
  decide +kernel

/-- A suffix that does not apply has no meaning, and neither has an atom with a blank inside. -/
example : (denote ⟨[], 2, "stack"⟩ (TypeTable.empty 8) "int4[0]*").toOption = none ∧
    (denote ⟨[], 2, "stack"⟩ (TypeTable.empty 8) "int 4").toOption = none := by
  decide +kernel

end TypeExpr

end TypeRecovery
