import RetirementVault.Json.Tree
import RetirementVault.Json.Writer

/-!
# Cutting a written text into tokens

The reader of tokens counts down characters, which is no help to a proof: what it does at a place
depends on the text behind that place only. `Cuts` says the same without the count, and
`tokensWithin_of_cuts` is the one place where the two meet.

The fact of this file is `cuts_write`: **a tree as it is written is cut into the tokens of the
tree**, in either layout and whatever follows, as long as what follows cannot go on with a number.
Text, numeral and tree each have a lemma of that form, with the rest of the text left open, so that
they can be put one behind the other.
-/

set_option autoImplicit false

namespace RetirementVault
namespace Json

/-! ## Cutting without a count -/

/-- A text is cut into tokens: blanks are passed over, and a token is what is read at its first
character. -/
inductive Cuts : Source → List Token → Prop
  | done : Cuts [] []
  | gap {c : Char} {s : Source} {ts : List Token} (hc : isGap c = true) (hs : Cuts s ts) :
      Cuts (some c :: s) ts
  | token {c : Char} {s r : Source} {t : Token} {ts : List Token} (hc : isGap c = false)
      (ht : readToken c s = some (t, r)) (hlen : r.length ≤ s.length) (hs : Cuts r ts) :
      Cuts (some c :: s) (t :: ts)

theorem tokensWithin_of_cuts {s : Source} {ts : List Token} (h : Cuts s ts) :
    ∀ n, s.length ≤ n → tokensWithin n s = some ts := by
  induction h with
  | done =>
    intro n _
    cases n <;> rfl
  | gap hc _ ih =>
    intro n hn
    cases n with
    | zero => exact absurd hn (by simp)
    | succ n =>
      rw [tokensWithin, if_pos hc]
      exact ih n (by simpa using hn)
  | token hc ht hlen _ ih =>
    intro n hn
    cases n with
    | zero => exact absurd hn (by simp)
    | succ n =>
      rw [tokensWithin, if_neg (by simp [hc]), ht]
      have hrest := ih n (Nat.le_trans hlen (by simpa using hn))
      simp [hrest]

theorem tokens?_of_cuts {s : Source} {ts : List Token} (h : Cuts s ts) : tokens? s = some ts :=
  tokensWithin_of_cuts h s.length (Nat.le_refl _)

theorem Cuts.mark {c : Char} {t : Token} {s : Source} {ts : List Token} (hc : isGap c = false)
    (ht : readToken c s = some (t, s)) (hs : Cuts s ts) : Cuts (some c :: s) (t :: ts) :=
  .token hc ht (Nat.le_refl _) hs

theorem Cuts.gaps {cs : List Char} {s : Source} {ts : List Token}
    (hcs : ∀ c ∈ cs, isGap c = true) (hs : Cuts s ts) : Cuts (cs.map some ++ s) ts := by
  induction cs with
  | nil => exact hs
  | cons c cs ih =>
    refine .gap (hcs c (by simp)) (ih ?_)
    intro d hd
    exact hcs d (by simp [hd])

theorem Cuts.newline (l : Layout) (depth : Nat) {s : Source} {ts : List Token}
    (hs : Cuts s ts) : Cuts ((l.newline depth).map some ++ s) ts := by
  refine .gaps ?_ hs
  intro c hc
  cases l with
  | compact => exact absurd hc (by simp [Layout.newline])
  | pretty =>
    rcases List.mem_cons.mp hc with rfl | hc
    · rfl
    · rw [List.eq_of_mem_replicate hc]
      rfl

theorem Cuts.colon {l : Layout} {s : Source} {ts : List Token} (hs : Cuts s ts) :
    Cuts (l.colon.map some ++ s) (.colon :: ts) := by
  cases l with
  | compact => exact .mark (c := ':') rfl rfl hs
  | pretty => exact .mark (c := ':') rfl rfl (.gap (c := ' ') rfl hs)

/-! ## Quoted texts -/

/-- The piece a character is read back as: the escape by number stays one until the pieces are put
together. -/
def pieceOf (c : Char) : Piece :=
  if (escapeChar c).length = 6 then .unit c.toNat else .char c

theorem hexValue?_digitChar {n : Nat} (h : n < 16) : hexValue? n.digitChar = some n := by
  have hall : ∀ m < 16, hexValue? (Nat.digitChar m) = some m := by decide
  exact hall n h

theorem unit?_digits {n : Nat} (h : n < 32) :
    unit? '0' '0' (Nat.digitChar (n / 16)) (Nat.digitChar (n % 16)) = some (.unit n) := by
  have hzero : hexValue? '0' = some 0 := by decide
  simp only [unit?, hzero, hexValue?_digitChar (show n / 16 < 16 by omega),
    hexValue?_digitChar (show n % 16 < 16 by omega), Option.bind_eq_bind, Option.bind_some,
    Option.pure_def, Option.some.injEq, Piece.unit.injEq]
  omega

/-- What is written for a character is read as its piece. The cases are those of the writer. -/
theorem readPieces_escapeChar (c : Char) (s : Source) :
    readPieces ((escapeChar c).map some ++ s)
      = (readPieces s).map fun r => (pieceOf c :: r.1, r.2) := by
  unfold pieceOf escapeChar
  split
  · next h => rcases h with rfl | rfl <;> rfl
  split
  · next h => subst h; rfl
  split
  · next h => subst h; rfl
  split
  · next h => subst h; rfl
  split
  · next h => subst h; rfl
  split
  · next h => subst h; rfl
  split
  · next h =>
    simp only [List.map_cons, List.map_nil, List.cons_append, List.nil_append, readPieces,
      unit?_digits h]
    rfl
  · next hquote _ _ _ _ _ hlow =>
    have hq : c ≠ '\x22' := fun e => hquote (Or.inl e)
    have hb : c ≠ '\\' := fun e => hquote (Or.inr e)
    simp [readPieces, hq, hb, hlow]

theorem readPieces_quoted (cs : List Char) (s : Source) :
    readPieces ((cs.flatMap escapeChar).map some ++ some '\x22' :: s)
      = some (cs.map pieceOf, s) := by
  induction cs with
  | nil => rfl
  | cons c cs ih =>
    rw [List.flatMap_cons, List.map_append, List.append_assoc, readPieces_escapeChar, ih]
    rfl

/-- A unit that is no surrogate is a character, whatever comes after it. -/
theorem charsOf?_unit {n : Nat} (h : n < 0xD800) (ps : List Piece) :
    charsOf? (.unit n :: ps) = (charsOf? ps).map (Char.ofNat n :: ·) := by
  have h₁ : ¬ (0xD800 ≤ n ∧ n < 0xDC00) := by omega
  have h₂ : ¬ (0xDC00 ≤ n ∧ n < 0xE000) := by omega
  have h₃ : ¬ (0xD800 ≤ n ∧ n < 0xE000) := by omega
  cases ps with
  | nil => simp only [charsOf?, if_neg h₃]
  | cons p ps =>
    cases p with
    | unit m => rw [charsOf?, if_neg h₁, if_neg h₂]
    | char d => simp only [charsOf?, if_neg h₃]
    | damaged => simp only [charsOf?, if_neg h₃]

theorem charsOf?_pieceOf (cs : List Char) : charsOf? (cs.map pieceOf) = some cs := by
  induction cs with
  | nil => rfl
  | cons c cs ih =>
    rw [List.map_cons]
    by_cases hc : (escapeChar c).length = 6
    · have hlow : c.toNat < 0xD800 := by
        unfold escapeChar at hc
        repeat' split at hc
        all_goals first | omega | exact absurd hc (by simp)
      rw [pieceOf, if_pos hc, charsOf?_unit hlow, ih, Char.ofNat_toNat]
      rfl
    · rw [pieceOf, if_neg hc, charsOf?, ih]
      rfl

/-- A text in quotes is read back as that text. -/
theorem Cuts.quote {x : String} {s : Source} {ts : List Token} (hs : Cuts s ts) :
    Cuts ((quote x).map some ++ s) (.str (some x) :: ts) := by
  have happ : (Json.quote x).map some ++ s
      = some '\x22' :: ((x.toList.flatMap escapeChar).map some ++ some '\x22' :: s) := by
    simp [Json.quote]
  have htext : textOf? (x.toList.map pieceOf) = some x := by
    rw [textOf?, charsOf?_pieceOf, Option.map_some, String.ofList_toList]
  rw [happ]
  refine .token rfl (r := s) ?_ ?_ hs
  · show (readPieces _).map _ = _
    rw [readPieces_quoted, Option.map_some, htext]
  · simp only [List.length_append, List.length_cons]
    omega

/-! ## Numbers -/

/-- A text that cannot go on with a number: what begins there is neither a digit nor the point or
the letter of one. -/
def Ends (s : Source) : Prop :=
  ∀ c, s.head? = some (some c) → c.isDigit = false ∧ c ≠ '.' ∧ c ≠ 'e' ∧ c ≠ 'E'

theorem ends_nil : Ends [] := by
  intro c hc
  exact absurd hc (by simp)

theorem ends_cons {c : Char} (hc : c.isDigit = false ∧ c ≠ '.' ∧ c ≠ 'e' ∧ c ≠ 'E') (s : Source) :
    Ends (some c :: s) := by
  intro d hd
  simp only [List.head?_cons, Option.some.injEq] at hd
  subst hd
  exact hc

/-- No blank goes on with a number. -/
theorem ends_gaps {cs : List Char} (hcs : ∀ c ∈ cs, isGap c = true) {s : Source} (hs : Ends s) :
    Ends (cs.map some ++ s) := by
  cases cs with
  | nil => exact hs
  | cons c cs =>
    refine ends_cons ?_ _
    have hc := hcs c (by simp)
    simp only [isGap, Bool.or_eq_true, decide_eq_true_eq] at hc
    rcases hc with ((rfl | rfl) | rfl) | rfl <;> decide

theorem Ends.newline (l : Layout) (depth : Nat) {s : Source} (hs : Ends s) :
    Ends ((l.newline depth).map some ++ s) := by
  cases l with
  | compact => exact hs
  | pretty => exact ends_cons (by decide) _

/-- A numeral that the grammar of JSON allows: digits on either side of the point, and no zero in
front of another digit. -/
structure Numeral.WellFormed (n : Numeral) : Prop where
  whole_ne_nil : n.whole ≠ []
  whole_digits : ∀ c ∈ n.whole, c.isDigit = true
  leading_zero : n.whole.head? = some '0' → n.whole = ['0']
  fraction_digits : ∀ c ∈ n.fraction, c.isDigit = true

theorem takeDigits_append {ds : List Char} {s : Source} (hds : ∀ c ∈ ds, c.isDigit = true)
    (hs : ∀ c, s.head? = some (some c) → c.isDigit = false) :
    takeDigits (ds.map some ++ s) = (ds, s) := by
  induction ds with
  | nil =>
    match s with
    | [] => rfl
    | none :: s => rfl
    | some c :: s =>
      have hc : c.isDigit = false := hs c rfl
      simp [takeDigits, hc]
  | cons d ds ih =>
    have hd : d.isDigit = true := hds d (by simp)
    have hrest := ih fun c hc => hds c (by simp [hc])
    simp only [List.map_cons, List.cons_append, takeDigits, hd, if_true, hrest]

theorem readWhole_append {n : Numeral} (h : n.WellFormed) {s : Source}
    (hs : ∀ c, s.head? = some (some c) → c.isDigit = false) :
    readWhole (n.whole.map some ++ s) = some (n.whole, s) := by
  have htake := takeDigits_append h.whole_digits hs
  cases hw : n.whole with
  | nil => exact absurd hw h.whole_ne_nil
  | cons d ds =>
    rw [hw] at htake
    by_cases hd : d = '0'
    · subst hd
      have hds : ds = [] := by simpa [hw] using h.leading_zero
      subst hds
      rfl
    · have hread : readWhole ((d :: ds).map some ++ s)
          = if (takeDigits ((d :: ds).map some ++ s)).1 = [] then none
            else some (takeDigits ((d :: ds).map some ++ s)) := by
        simp only [List.map_cons, List.cons_append]
        rw [readWhole]
        intro t ht
        simp only [List.cons.injEq, Option.some.injEq] at ht
        exact hd ht.1
      rw [hread, htake, if_neg (by simp)]

def fractionChars (ds : List Char) : List Char :=
  if ds = [] then [] else '.' :: ds

def exponentChars : Option Int → List Char
  | none => []
  | some e => 'e' :: (if e < 0 then '-' else '+') :: Text.digits e.natAbs

theorem Numeral.chars_eq (n : Numeral) :
    n.chars = (if n.negative then ['-'] else []) ++ n.whole ++ fractionChars n.fraction
      ++ exponentChars n.exponent := by
  unfold Numeral.chars fractionChars exponentChars
  cases n.exponent <;> rfl

theorem readFraction_append {ds : List Char} {s : Source} (hds : ∀ c ∈ ds, c.isDigit = true)
    (hs : ∀ c, s.head? = some (some c) → c.isDigit = false ∧ c ≠ '.') :
    readFraction ((fractionChars ds).map some ++ s) = some (ds, s) := by
  by_cases h : ds = []
  · subst h
    show readFraction s = some ([], s)
    rw [readFraction]
    intro t ht
    subst ht
    exact absurd rfl (hs '.' rfl).2
  · have htake := takeDigits_append hds fun c hc => (hs c hc).1
    rw [fractionChars, if_neg h]
    show (if (takeDigits (ds.map some ++ s)).1 = [] then none
      else some (takeDigits (ds.map some ++ s))) = _
    rw [htake, if_neg h]

theorem readPower_append (negative : Bool) (n : Nat) {s : Source} (hs : Ends s) :
    readPower negative ((Text.digits n).map some ++ s)
      = some (some (if negative then -(n : Int) else n), s) := by
  have htake : takeDigits ((Text.digits n).map some ++ s) = (Text.digits n, s) :=
    takeDigits_append (fun c hc => Text.isDigit_of_mem_digits hc) fun c hc => (hs c hc).1
  have hvalue : Nat.ofDigitChars 10 (Text.digits n) 0 = n := Nat.ofDigitChars_ten_toDigits
  simp only [readPower, htake, if_neg (Text.digits_ne_nil n), hvalue]

theorem readExponent_append (e : Option Int) {s : Source} (hs : Ends s) :
    readExponent ((exponentChars e).map some ++ s) = some (e, s) := by
  cases e with
  | none =>
    show readExponent s = some (none, s)
    match s with
    | [] => rfl
    | none :: s => rfl
    | some c :: s =>
      have hc := hs c rfl
      simp only [readExponent, hc.2.2.1, hc.2.2.2, or_self, if_false]
  | some e =>
    by_cases h : e < 0
    · have hread : readExponent ((exponentChars (some e)).map some ++ s)
          = readPower true ((Text.digits e.natAbs).map some ++ s) := by
        simp [exponentChars, readExponent, h]
      rw [hread, readPower_append true _ hs]
      simp only [if_true, Option.some.injEq, Prod.mk.injEq, and_true]
      omega
    · have hread : readExponent ((exponentChars (some e)).map some ++ s)
          = readPower false ((Text.digits e.natAbs).map some ++ s) := by
        simp [exponentChars, readExponent, h]
      rw [hread, readPower_append false _ hs]
      simp only [Bool.false_eq_true, if_false, Option.some.injEq, Prod.mk.injEq, and_true]
      omega

/-- What stands behind the whole part of a numeral begins with no digit. -/
theorem head?_exponentChars (e : Option Int) {s : Source} (hs : Ends s) (c : Char)
    (hc : ((exponentChars e).map some ++ s).head? = some (some c)) :
    c.isDigit = false ∧ c ≠ '.' := by
  cases e with
  | none => exact ⟨(hs c hc).1, (hs c hc).2.1⟩
  | some e =>
    simp only [exponentChars, List.map_cons, List.cons_append, List.head?_cons,
      Option.some.injEq] at hc
    subst hc
    decide

theorem head?_fractionChars (ds : List Char) (e : Option Int) {s : Source} (hs : Ends s) (c : Char)
    (hc : ((fractionChars ds).map some ++ ((exponentChars e).map some ++ s)).head?
      = some (some c)) : c.isDigit = false := by
  by_cases h : ds = []
  · rw [fractionChars, if_pos h] at hc
    exact (head?_exponentChars e hs c hc).1
  · rw [fractionChars, if_neg h] at hc
    simp only [List.map_cons, List.cons_append, List.head?_cons, Option.some.injEq] at hc
    subst hc
    decide

/-- **A numeral is read back as it was written**, sign apart. -/
theorem readNumeral_append {n : Numeral} (h : n.WellFormed) {s : Source} (hs : Ends s) :
    readNumeral n.negative
      ((n.whole ++ fractionChars n.fraction ++ exponentChars n.exponent).map some ++ s)
      = some (n, s) := by
  have happ : (n.whole ++ fractionChars n.fraction ++ exponentChars n.exponent).map some ++ s
      = n.whole.map some ++ ((fractionChars n.fraction).map some
        ++ ((exponentChars n.exponent).map some ++ s)) := by
    simp
  have hwhole := readWhole_append h (head?_fractionChars n.fraction n.exponent hs)
  have hfraction := readFraction_append h.fraction_digits (head?_exponentChars n.exponent hs)
  have hexponent := readExponent_append n.exponent hs
  rw [happ]
  simp only [readNumeral, hwhole, hfraction, hexponent, Option.bind_eq_bind, Option.bind_some,
    Option.pure_def]

theorem readToken_digit {c : Char} (hc : c.isDigit = true) (s : Source) :
    readToken c s = (readNumeral false (some c :: s)).map fun r => (.num r.1, r.2) := by
  have hne : ∀ d : Char, d.isDigit = false → c ≠ d := by
    intro d hd e
    rw [e, hd] at hc
    exact absurd hc (by decide)
  unfold readToken
  rw [if_neg (hne '[' rfl), if_neg (hne ']' rfl), if_neg (hne '\x7b' rfl),
    if_neg (hne '\x7d' rfl), if_neg (hne ',' rfl), if_neg (hne ':' rfl), if_neg (hne '\x22' rfl),
    if_neg (hne '-' rfl), if_pos hc]

theorem isGap_digit {c : Char} (hc : c.isDigit = true) : isGap c = false := by
  have hne : ∀ d : Char, d.isDigit = false → c ≠ d := by
    intro d hd e
    rw [e, hd] at hc
    exact absurd hc (by decide)
  simp [isGap, hne ' ' rfl, hne '\t' rfl, hne '\n' rfl, hne '\r' rfl]

/-- A numeral is read back as that numeral. -/
theorem Cuts.numeral {n : Numeral} (h : n.WellFormed) {s : Source} {ts : List Token}
    (hend : Ends s) (hs : Cuts s ts) : Cuts (n.chars.map some ++ s) (.num n :: ts) := by
  have hread := readNumeral_append h hend
  rw [Numeral.chars_eq]
  cases hneg : n.negative with
  | true =>
    rw [hneg] at hread
    simp only [if_true, List.append_assoc, List.cons_append, List.nil_append, List.map_cons]
      at hread ⊢
    refine .token rfl (r := s) ?_ ?_ hs
    · show (readNumeral true _).map _ = _
      rw [hread, Option.map_some]
    · simp only [List.length_append]
      omega
  | false =>
    rw [hneg] at hread
    cases hw : n.whole with
    | nil => exact absurd hw h.whole_ne_nil
    | cons d ds =>
      have hd : d.isDigit = true := h.whole_digits d (by simp [hw])
      simp only [hw, Bool.false_eq_true, if_false, List.append_assoc, List.cons_append,
        List.nil_append, List.map_cons] at hread ⊢
      refine .token (isGap_digit hd) (r := s) ?_ ?_ hs
      · rw [readToken_digit hd, hread, Option.map_some]
      · simp only [List.length_append]
        omega

end Json
end RetirementVault
