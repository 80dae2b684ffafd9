import Mathlib.Data.List.TakeWhile
import Lowering.Json.Scan
import Lowering.Proofs.Except
/-!
# A value is scanned back from its text

`scan_write`: the text of a value that nests fewer than `nestingLimit` levels is scanned as the document of that value,
if each of its numbers is read back from its own text (`Number.Legible`). Integers are (`Number.legible_natural`,
`Number.legible_negative`).

The scanners are followed through the text of a value with any text behind it that cannot continue a number
(`Closes`). Behind a number blanks may be left over, so what is left is known up to blanks, which is all that the
scanners of items and members look at.
-/

namespace Lowering.Json

/-! ### Levels and numbers of a value -/

mutual

/-- How many levels of arrays and objects a value has. -/
def depth : Json → Nat
  | .array items => depthOfItems items + 1
  | .object members => depthOfMembers members + 1
  | _ => 0

def depthOfItems : List Json → Nat
  | [] => 0
  | item :: rest => max item.depth (depthOfItems rest)

def depthOfMembers : List (String × Json) → Nat
  | [] => 0
  | (_, item) :: rest => max item.depth (depthOfMembers rest)

end

variable {j : Json} {cs : List Char} {c : Char} {minus : Bool} {n : Number}

theorem depth_le_depthOfItems (h : j ∈ items) : j.depth ≤ depthOfItems items := by
  induction items with
  | nil => cases h
  | cons item rest ih =>
    grind [depthOfItems]

mutual

def numbers : Json → List Number
  | .number n => [n]
  | .array items => numbersOfItems items
  | .object members => numbersOfMembers members
  | _ => []

def numbersOfItems : List Json → List Number
  | [] => []
  | item :: rest => item.numbers ++ numbersOfItems rest

def numbersOfMembers : List (String × Json) → List Number
  | [] => []
  | (_, item) :: rest => item.numbers ++ numbersOfMembers rest

end

/-- A number that is read back from its text. -/
def Number.Legible (n : Number) : Prop := parse n.write = .ok (.number n)

/-! ### Blanks and ends -/

theorem dropBlanks_append (h : dropBlanks cs ≠ []) (tail : List Char) :
    dropBlanks (cs ++ tail) = dropBlanks cs ++ tail := by
  grind [dropBlanks, List.dropWhile_append]

theorem dropBlanks_blank_append (h : dropBlanks cs = []) (tail : List Char) :
    dropBlanks (cs ++ tail) = dropBlanks tail := by
  simp only [dropBlanks] at h ⊢
  simp_all

theorem dropBlanks_cons (h : isBlank c = false) (rest : List Char) : dropBlanks (c :: rest) = c :: rest := by
  simp [dropBlanks, h]

theorem ne_of_isDigit (hc : c.isDigit) (hd : d.isDigit = false) : c ≠ d := by
  grind

theorem dropBlanks_digit (h : c.isDigit) (rest : List Char) : dropBlanks (c :: rest) = c :: rest := by
  apply dropBlanks_cons
  simp [isBlank, ne_of_isDigit h]

/-- A text that does not go on with a number: it is at its end, or at a comma or a closing bracket. -/
def Closes (tail : List Char) : Prop := ∀ c ∈ tail.head?, c = ',' ∨ c = ']' ∨ c = '\x7d'

namespace Closes

theorem nil : Closes [] := by simp [Closes]

variable {tail : List Char}

theorem comma : Closes (',' :: tail) := by simp [Closes]

theorem bracket : Closes (']' :: tail) := by simp [Closes]

theorem brace : Closes ('\x7d' :: tail) := by simp [Closes]

theorem cons_inv (h : Closes (c :: tail)) : c.isDigit = false ∧ c ≠ '.' ∧ c ≠ 'e' ∧ c ≠ 'E' := by
  rcases h c rfl with rfl | rfl | rfl <;> decide

theorem takeWhile_isDigit (h : Closes tail) : tail.takeWhile Char.isDigit = [] := by
  cases tail with
  | nil => rfl
  | cons => simp [h.cons_inv.1]

theorem dropWhile_isDigit (h : Closes tail) : tail.dropWhile Char.isDigit = tail := by
  cases tail with
  | nil => rfl
  | cons => simp [h.cons_inv.1]

end Closes

/-! ### Numbers -/

theorem scanDigits_append (h : Closes tail) (cs : List Char) :
    scanDigits (cs ++ tail) = ((scanDigits cs).1, (scanDigits cs).2 ++ tail) := by
  induction cs with
  | nil => simp [scanDigits, h.takeWhile_isDigit, h.dropWhile_isDigit]
  | cons c rest ih =>
    by_cases hc : c.isDigit
    · simp_all [scanDigits]
    · simp [scanDigits, hc]

section Append

-- A number that is scanned from a text is scanned from that text with more behind it, too.
variable {tail cs rest : List Char}

theorem scanWhole_append (h : Closes tail) (hscan : scanWhole cs = .ok (digits, rest)) :
    scanWhole (cs ++ tail) = .ok (digits, rest ++ tail) := by
  unfold scanWhole at hscan
  split at hscan
  · cases hscan
  · split at hscan
    · grind [scanWhole]
    cases hscan
    cases tail with
    | nil => rfl
    | cons => simp [scanWhole, h.cons_inv.1]
  rename_i c more hzero
  split at hscan
  · rename_i hdigit
    cases hscan
    rw [List.cons_append, scanWhole, if_pos hdigit, ← List.cons_append, scanDigits_append h]
    · rfl
    · exact hzero
  · cases hscan

theorem scanFraction_append (h : Closes tail) (hscan : scanFraction cs = .ok (digits, rest)) :
    scanFraction (cs ++ tail) = .ok (digits, rest ++ tail) := by
  unfold scanFraction at hscan
  split at hscan
  · split at hscan
    · cases hscan
    · cases hscan
      simp_all [scanFraction, scanDigits_append h]
  rename_i hpoint
  cases hscan
  have hout : ∀ more, cs ++ tail ≠ '.' :: more := by
    intro more hmore
    cases cs with
    | nil =>
      subst hmore
      exact h.cons_inv.2.1 rfl
    | cons c cs =>
      simp_all
  rw [scanFraction]
  exact hout

theorem scanSign_append (tail : List Char) (hne : cs ≠ []) :
    scanSign (cs ++ tail) = ((scanSign cs).1, (scanSign cs).2 ++ tail) := by
  rcases cs with _ | ⟨c, cs⟩
  · exact absurd rfl hne
  by_cases hplus : c = '+'
  · subst hplus
    rfl
  by_cases hminus : c = '-'
  · subst hminus
    rfl
  · simp [scanSign, hplus, hminus]

theorem scanExponent_append (h : Closes tail) (hscan : scanExponent cs = .ok (exponent, rest)) :
    scanExponent (cs ++ tail) = .ok (exponent, rest ++ tail) := by
  cases cs with
  | nil =>
    cases hscan
    rcases tail with _ | ⟨c, more⟩
    · rfl
    obtain ⟨-, -, he, hE⟩ := h.cons_inv
    simp [scanExponent, he, hE]
  | cons c cs =>
    by_cases hmark : c = 'e' || c = 'E'
    · have hne : cs ≠ [] := by
        rintro rfl
        simp [scanExponent, hmark, scanSign, scanDigits] at hscan
      simp only [scanExponent, List.cons_append, scanSign_append tail hne, scanDigits_append h, if_pos hmark] at hscan ⊢
      grind
    · grind [scanExponent]

theorem scanNumeral_append {n} (h : Closes tail) (hscan : scanNumeral minus cs = .ok (n, rest)) :
    scanNumeral minus (cs ++ tail) = .ok (n, rest ++ tail) := by
  obtain ⟨⟨whole, cs1⟩, hwhole, hscan⟩ := bind_eq_ok hscan
  obtain ⟨⟨fraction, cs2⟩, hfraction, hscan⟩ := bind_eq_ok hscan
  obtain ⟨⟨exponent, cs3⟩, hexponent, hscan⟩ := bind_eq_ok hscan
  cases hscan
  exact bind_eq_ok_iff.2 ⟨_, scanWhole_append h hwhole, bind_eq_ok_iff.2 ⟨_, scanFraction_append h hfraction,
    bind_eq_ok_iff.2 ⟨_, scanExponent_append h hexponent, rfl⟩⟩⟩

theorem scanNumber_append {n} (h : Closes tail) (hscan : scanNumber minus cs = (.number n, some rest)) :
    scanNumber minus (cs ++ tail) = (.number n, some (rest ++ tail)) := by
  unfold scanNumber at hscan
  split at hscan
  · rename_i numeral more hnumeral
    cases hscan
    simp [scanNumber, scanNumeral_append h hnumeral]
  · cases hscan

end Append

theorem scanNumber_rest (h : scanNumber minus cs = (.number n, rest)) : ∃ more, rest = some more := by
  grind [scanNumber]

theorem scanLiteral_ne_number (hdoc : doc ≠ .number n) :
    scanLiteral doc word cs ≠ (.number n, rest) := by
  unfold scanLiteral
  split <;> simp [hdoc]

section Sign

variable {rounds level : Nat} {cs digits : List Char}

theorem scanValue_minus (h : dropBlanks cs = '-' :: digits) :
    scanValue (rounds + 1) level cs = scanNumber true digits := by
  simp [scanValue, h]

theorem scanValue_digit (hc : c.isDigit) (h : dropBlanks cs = c :: digits) :
    scanValue (rounds + 1) level cs = scanNumber false (c :: digits) := by
  simp [scanValue, h, hc, ne_of_isDigit hc]

/-- A number is found only behind a minus sign or at a digit. -/
theorem scanValue_number_inv (h : scanValue rounds level cs = (.number n, rest)) :
    (∃ digits, dropBlanks cs = '-' :: digits ∧ scanNumber true digits = (.number n, rest)) ∨
    ∃ c digits, dropBlanks cs = c :: digits ∧ c.isDigit ∧ scanNumber false (c :: digits) = (.number n, rest) := by
  rcases rounds with _ | rounds
  · simp [scanValue] at h
  simp only [scanValue] at h
  split at h
  · cases h
  · exact absurd h (scanLiteral_ne_number (by simp))
  · exact absurd h (scanLiteral_ne_number (by simp))
  · exact absurd h (scanLiteral_ne_number (by simp))
  · split at h <;> cases h
  · split at h <;> cases h
  · split at h <;> cases h
  · exact .inl ⟨_, ‹_›, h⟩
  · grind

end Sign

theorem Doc.eq_number_of_value {doc : Doc} (h : doc.value = .ok (.number n)) : doc = .number (some n) := by
  cases doc with
  | number m =>
    cases m with
    | none => simp [Doc.value] at h
    | some => simpa [Doc.value] using h
  | string s => cases s <;> simp [Doc.value, Except.map] at h
  | array items stop | object members stop =>
    obtain ⟨_, -, h⟩ := bind_eq_ok h
    cases stop <;> cases h
  | _ => simp [Doc.value] at h

theorem Number.Legible.scanned (h : n.Legible) :
    ∃ rounds rest, scanValue rounds 0 n.write.toList = (.number (some n), some rest) ∧ dropBlanks rest = [] := by
  obtain ⟨j, hvalue, hcomplete⟩ := bind_eq_ok h
  split at hcomplete
  · rename_i hblank
    cases hcomplete
    have hdoc := Doc.eq_number_of_value hvalue
    simp only [scan] at hdoc hblank
    rcases hscan : scanValue (3 * n.write.toList.length + 3) 0 n.write.toList with ⟨doc, rest⟩
    rw [hscan] at hdoc hblank
    subst hdoc
    obtain ⟨rest, rfl⟩ : ∃ more, rest = some more := by
      rcases scanValue_number_inv hscan with ⟨digits, -, hnumber⟩ | ⟨c, digits, -, -, hnumber⟩
      · exact scanNumber_rest hnumber
      · exact scanNumber_rest hnumber
    exact ⟨_, rest, hscan, by simpa using hblank⟩
  · cases hcomplete

theorem scanValue_number (h : n.Legible) (htail : Closes tail) (rounds level : Nat) :
    ∃ rest, scanValue (rounds + 1) level (n.write.toList ++ tail) = (.number (some n), some rest) ∧
      dropBlanks rest = dropBlanks tail := by
  obtain ⟨_, rest, hscan, hblank⟩ := h.scanned
  refine ⟨rest ++ tail, ?_, dropBlanks_blank_append hblank tail⟩
  rcases scanValue_number_inv hscan with ⟨digits, hcs, hnumber⟩ | ⟨c, digits, hcs, hc, hnumber⟩
  · have hcs' : dropBlanks (n.write.toList ++ tail) = '-' :: (digits ++ tail) := by
      rw [dropBlanks_append (by simp [hcs]), hcs, List.cons_append]
    rw [scanValue_minus hcs', scanNumber_append htail hnumber]
  · have hcs' : dropBlanks (n.write.toList ++ tail) = c :: (digits ++ tail) := by
      rw [dropBlanks_append (by simp [hcs]), hcs, List.cons_append]
    rw [scanValue_digit hc hcs', ← List.cons_append, scanNumber_append htail hnumber]

/-! ### Integers -/

theorem le_ofDigitChars (cs : List Char) (n : Nat) : n ≤ Nat.ofDigitChars 10 cs n := by
  induction cs generalizing n with
  | nil => exact Nat.le_refl n
  | cons c cs ih =>
    grind [Nat.ofDigitChars_cons]

/-- Digits are taken to the last as long as the number that they make stays within the limit. -/
theorem Numeral.absorb_map (cs : List Char) (n : Nat) (h : Nat.ofDigitChars 10 cs n ≤ limit) :
    absorb limit n (cs.map digitValue) = (Nat.ofDigitChars 10 cs n, []) := by
  induction cs generalizing n with
  | nil => rfl
  | cons c cs ih =>
    rw [Nat.ofDigitChars_cons] at h ⊢
    have hle := le_ofDigitChars cs (n * 10 + (c.toNat - '0'.toNat))
    grind [absorb, digitValue]

theorem Numeral.absorb_toDigits {n} (h : n ≤ wordMax) :
    absorb wordMax 0 ((Nat.toDigits 10 n).map digitValue) = (n, []) := by
  rw [absorb_map _ _ (by simp_all), Nat.ofDigitChars_ten_toDigits]

theorem exists_toDigits {n} (h : 0 < n) : ∃ c rest, Nat.toDigits 10 n = c :: rest ∧ c ≠ '0' := by
  induction n using Nat.strongRecOn with
  | _ n ih =>
    by_cases hn : n < 10
    · refine ⟨n.digitChar, [], Nat.toDigits_of_lt_base hn, ?_⟩
      have hdigit : ∀ m < 10, 0 < m → m.digitChar ≠ '0' := by decide
      exact hdigit n hn h
    · obtain ⟨c, rest, hrest, hc⟩ := ih (n / 10) (by omega) (by omega)
      exact ⟨c, _, by rw [Nat.toDigits_of_base_le (by omega) (by omega), hrest, List.cons_append], hc⟩

theorem scanNumeral_toDigits (minus : Bool) (n : Nat) :
    scanNumeral minus (Nat.toDigits 10 n) = .ok (⟨minus, (Nat.toDigits 10 n).map digitValue, none, none⟩, []) := by
  have hwhole : scanWhole (Nat.toDigits 10 n) = .ok ((Nat.toDigits 10 n).map digitValue, []) := by
    rcases Nat.eq_zero_or_pos n with rfl | hn
    · rfl
    · have hdigits : ∀ c ∈ Nat.toDigits 10 n, c.isDigit :=
        fun c hc => Nat.isDigit_of_mem_toDigits (by omega) (by omega) hc
      have hall : scanDigits (Nat.toDigits 10 n) = ((Nat.toDigits 10 n).map digitValue, []) := by
        rw [scanDigits, List.takeWhile_eq_self_iff.2 hdigits, List.dropWhile_eq_nil_iff.2 hdigits]
      obtain ⟨c, rest, hrest, hc⟩ := exists_toDigits hn
      simp_all [scanWhole]
  exact bind_eq_ok_iff.2 ⟨_, hwhole, rfl⟩

namespace Number

theorem legible_of_scanValue (h : ∀ rounds, scanValue (rounds + 1) 0 n.write.toList = (.number (some n), some [])) :
    n.Legible := by
  simp [Legible, parse, scan, h, Doc.value, dropBlanks]

theorem legible_natural (n : UInt64) : (natural n).Legible := by
  apply legible_of_scanValue
  intro rounds
  obtain ⟨c, rest, hrest⟩ := List.exists_cons_of_ne_nil (Nat.toDigits_ne_nil : Nat.toDigits 10 n.toNat ≠ [])
  have hc : c.isDigit := Nat.isDigit_of_mem_toDigits (by omega) (by omega) (hrest ▸ List.mem_cons_self)
  have hblank : dropBlanks (Nat.toDigits 10 n.toNat) = c :: rest := by rw [hrest, dropBlanks_digit hc]
  have hvalue : Numeral.value ⟨false, (Nat.toDigits 10 n.toNat).map digitValue, none, none⟩ = some (natural n) := by
    simp [Numeral.value, Numeral.absorb_toDigits (Nat.le_of_lt_succ n.toNat_lt)]
  have hwrite : (natural n).write.toList = Nat.toDigits 10 n.toNat := Nat.toList_repr
  rw [hwrite, scanValue_digit hc hblank, ← hrest, scanNumber, scanNumeral_toDigits]
  simp [hvalue]

theorem legible_negative (n : Int64) (sign : n < 0) : (negative n sign).Legible := by
  apply legible_of_scanValue
  intro rounds
  obtain ⟨m, hm⟩ := Int.eq_negSucc_of_lt_zero (Int64.lt_iff_toInt_lt.1 sign)
  have hlow := n.le_toInt
  have hvalue : Numeral.value ⟨true, (Nat.toDigits 10 (m + 1)).map digitValue, none, none⟩ =
      some (negative n sign) := by
    have habsorb := Numeral.absorb_toDigits (n := m + 1) (by rw [Numeral.wordMax]; omega)
    have hn : Int64.ofInt (-(m + 1 : Nat)) = n := by
      rw [show -((m + 1 : Nat) : Int) = n.toInt from hm.symm, Int64.ofInt_toInt]
    simp only [Numeral.value, habsorb]
    rw [if_neg (by decide), if_neg (by omega), hn, ofInt64, dif_pos sign]
  have hwrite : (negative n sign).write.toList = '-' :: Nat.toDigits 10 (m + 1) := by
    show (toString n.toInt).toList = _
    rw [hm]
    show ("-" ++ toString (m + 1)).toList = _
    simp
  rw [hwrite, scanValue_minus rfl, scanNumber, scanNumeral_toDigits]
  simp [hvalue]

theorem legible (hfloat : ∀ x, n = .float x → n.Legible) : n.Legible := by
  cases n with
  | natural n => exact legible_natural n
  | negative n sign => exact legible_negative n sign
  | float x => exact hfloat x rfl

end Number

/-! ### Strings -/

theorem hexValue?_digitChar : ∀ n < 16, hexValue? n.digitChar = some n := by decide

/-- Every character is scanned back from the way it is written in a string. -/
theorem scanString_writeChar (rounds : Nat) (c : Char) (rest taken : List Char) :
    scanString (rounds + 1) (writeChar c ++ rest) taken none = scanString rounds rest (c :: taken) none := by
  unfold writeChar
  split
  · rfl
  · rfl
  · rfl
  · rfl
  · rfl
  · rfl
  · rfl
  rename_i _ hquote hslash _ _ _ _ _
  split
  · rename_i hlow
    have hzero : hexValue? '0' = some 0 := by decide
    have hfirst := hexValue?_digitChar (c.toNat / 16 % 16) (by omega)
    have hsecond := hexValue?_digitChar (c.toNat % 16) (by omega)
    have hunit : ((0 * 16 + 0) * 16 + c.toNat / 16 % 16) * 16 + c.toNat % 16 = c.toNat := by omega
    have hscan : scanHex4 ('0' :: '0' :: (c.toNat / 16 % 16).digitChar :: (c.toNat % 16).digitChar :: rest) =
        .ok (c.toNat, rest) := by
      simp only [scanHex4, hzero, hfirst, hsecond, hunit]
    simp only [hexByte, List.cons_append, List.nil_append, scanString, hscan, Char.ofNat_toNat]
    rw [if_neg (by simp), if_neg (by omega), if_neg (by omega)]
  · rename_i hhigh
    simp_all [scanString, if_neg hhigh]

theorem scanString_write (cs taken tail : List Char) (h : cs.length < rounds) :
    scanString rounds (cs.flatMap writeChar ++ '"' :: tail) taken none =
      .ok (.ok (String.ofList (taken.reverse ++ cs)), tail) := by
  induction cs generalizing taken rounds with
  | nil =>
    obtain ⟨rounds, rfl⟩ := Nat.exists_eq_succ_of_ne_zero (by omega : rounds ≠ 0)
    simp [scanString]
  | cons c cs ih =>
    obtain ⟨rounds, rfl⟩ := Nat.exists_eq_succ_of_ne_zero (by omega : rounds ≠ 0)
    rw [List.flatMap_cons, List.append_assoc, scanString_writeChar, ih _ (by simpa using h)]
    simp

theorem length_le_flatMap_writeChar (cs : List Char) : cs.length ≤ (cs.flatMap writeChar).length := by
  induction cs with
  | nil => exact Nat.le_refl 0
  | cons c cs ih =>
    have hone : 1 ≤ (writeChar c).length := by
      unfold writeChar
      grind
    grind

theorem scanString_writeString (s : String) (tail : List Char) :
    ∃ rest, (writeString s).toList ++ tail = '"' :: rest ∧
      scanString (rest.length + 1) rest [] none = .ok (.ok s, tail) := by
  refine ⟨s.toList.flatMap writeChar ++ '"' :: tail, by simp [writeString], ?_⟩
  rw [scanString_write]
  · simp
  have := length_le_flatMap_writeChar s.toList
  simp only [List.length_append]
  omega

/-! ### Values -/

/-- The text of items; `first` where no comma is due in front of them. -/
def itemsText : Bool → List Json → List Char
  | _, [] => []
  | first, item :: rest => (if first then [] else [',']) ++ (item.write.toList ++ itemsText false rest)

/-- The text of members; `first` where no comma is due in front of them. -/
def membersText : Bool → List (String × Json) → List Char
  | _, [] => []
  | first, (key, item) :: rest =>
    (if first then [] else [',']) ++ ((writeString key).toList ++ ':' :: (item.write.toList ++ membersText false rest))

theorem toList_writeItems (items : List Json) : (writeItems items).toList = itemsText true items := by
  induction items with
  | nil => rfl
  | cons item rest ih =>
    cases rest with
    | nil => simp [writeItems, itemsText]
    | cons => simp_all [writeItems, itemsText]

theorem toList_writeMembers (members : List (String × Json)) :
    (writeMembers members).toList = membersText true members := by
  induction members with
  | nil => rfl
  | cons member rest ih =>
    obtain ⟨key, item⟩ := member
    cases rest with
    | nil => simp [writeMembers, membersText]
    | cons => simp_all [writeMembers, membersText]

theorem toList_write_array (items : List Json) :
    (write (.array items)).toList = '[' :: (itemsText true items ++ [']']) := by
  simp [write, toList_writeItems]

theorem toList_write_object (members : List (String × Json)) :
    (write (.object members)).toList = '\x7b' :: (membersText true members ++ ['\x7d']) := by
  simp [write, toList_writeMembers]

theorem closes_itemsText (items : List Json) (tail : List Char) : Closes (itemsText false items ++ ']' :: tail) := by
  cases items with
  | nil => exact .bracket
  | cons => exact .comma

theorem closes_membersText (members : List (String × Json)) (tail : List Char) :
    Closes (membersText false members ++ '\x7d' :: tail) := by
  cases members with
  | nil => exact .brace
  | cons => exact .comma

/-! Scanners look at what is left only behind its blanks. -/

theorem dropBlanks_dropBlanks (cs : List Char) : dropBlanks (dropBlanks cs) = dropBlanks cs := by
  induction cs with
  | nil => rfl
  | cons c => by_cases hc : isBlank c <;> simp_all [dropBlanks]

section Blanks

variable {cs cs' : List Char} (h : dropBlanks cs = dropBlanks cs') (rounds level : Nat)

include h

theorem scanValue_congr : scanValue rounds level cs = scanValue rounds level cs' := by
  cases rounds with
  | zero => rfl
  | succ => simp [scanValue, h]

theorem scanItems_congr (first : Bool) : scanItems rounds level first cs = scanItems rounds level first cs' := by
  cases rounds with
  | zero => rfl
  | succ => simp [scanItems, h]

theorem scanMembers_congr (first : Bool) :
    scanMembers rounds level first cs = scanMembers rounds level first cs' := by
  cases rounds with
  | zero => rfl
  | succ => simp [scanMembers, h]

end Blanks

/-- The text of a value begins with a character that closes no array. -/
theorem dropBlanks_write (h : ∀ n ∈ j.numbers, n.Legible) (tail : List Char) :
    ∃ c rest, dropBlanks (j.write.toList ++ tail) = c :: rest ∧ c ≠ ']' := by
  cases j with
  | null => exact ⟨'n', _, rfl, by decide⟩
  | bool b => cases b <;> exact ⟨_, _, rfl, by decide⟩
  | number n =>
    obtain ⟨_, _, hscan, -⟩ := (h n (by simp [numbers])).scanned
    rcases scanValue_number_inv hscan with ⟨digits, hcs, -⟩ | ⟨c, digits, hcs, hc, -⟩
    · exact ⟨'-', digits ++ tail, by rw [write, dropBlanks_append (by simp [hcs]), hcs]; rfl, by decide⟩
    · exact ⟨c,
        digits ++ tail, by rw [write, dropBlanks_append (by simp [hcs]), hcs]; rfl, ne_of_isDigit hc (by decide)⟩
  | string s =>
    obtain ⟨rest, hrest, -⟩ := scanString_writeString s tail
    exact ⟨'"', rest, by rw [write, hrest]; rfl, by decide⟩
  | array => exact ⟨'[', _, by rw [toList_write_array]; rfl, by decide⟩
  | object => exact ⟨'\x7b', _, by rw [toList_write_object]; rfl, by decide⟩

section Step

variable {rounds level} {cs rest tail : List Char} {doc}

theorem scanItems_item (first : Bool) (hhead : ∃ c more, dropBlanks cs = c :: more ∧ c ≠ ']')
    (hvalue : scanValue rounds level cs = (doc, some rest))
    (hrest : scanItems rounds level false rest = (docs, none, some tail)) :
    scanItems (rounds + 1) level first ((if first then [] else [',']) ++ cs) = (doc :: docs, none, some tail) := by
  obtain ⟨c, more, hcs, hc⟩ := hhead
  rw [scanValue_congr (dropBlanks_dropBlanks cs).symm, hcs] at hvalue
  cases first with
  | true => simp [scanItems, hcs, hvalue, hrest]
  | false => simp [scanItems, dropBlanks_cons (c := ',') (by decide), hcs, hc, hvalue, hrest]

theorem scanMembers_member (first : Bool) (key : String) (hvalue : scanValue rounds level cs = (doc, some rest))
    (hrest : scanMembers rounds level false rest = (members, none, some tail)) :
    scanMembers (rounds + 1) level first ((if first then [] else [',']) ++ ((writeString key).toList ++ ':' :: cs)) =
      ((.ok key, doc) :: members, none, some tail) := by
  obtain ⟨more, hkey, hscan⟩ := scanString_writeString key (':' :: cs)
  have hquote : dropBlanks ('"' :: more) = '"' :: more := dropBlanks_cons (by decide) more
  have hcolon : dropBlanks (':' :: cs) = ':' :: cs := dropBlanks_cons (by decide) cs
  rw [hkey]
  cases first with
  | true => simp [scanMembers, hquote, hscan, hcolon, hvalue, hrest]
  | false =>
    have hcomma : dropBlanks (',' :: '"' :: more) = ',' :: '"' :: more := dropBlanks_cons (by decide) _
    simp [scanMembers, hcomma, hquote, hscan, hcolon, hvalue, hrest]

end Step

theorem length_write_pos (h : ∀ n ∈ j.numbers, n.Legible) : 0 < j.write.toList.length := by
  obtain ⟨c, rest, hcs, -⟩ := dropBlanks_write h []
  rw [List.append_nil] at hcs
  cases hj : j.write.toList with
  | nil => simp [hj, dropBlanks] at hcs
  | cons => simp

mutual

/-- The text of a value is scanned as the document of that value. -/
theorem scanValue_write : ∀ (j : Json) (tail : List Char) {rounds level}, level + j.depth < nestingLimit →
    (∀ n ∈ j.numbers, n.Legible) → j.write.toList.length ≤ rounds + 1 → Closes tail →
    ∃ rest, scanValue (rounds + 1) level (j.write.toList ++ tail) = (Doc.ofJson j, some rest) ∧
      dropBlanks rest = dropBlanks tail
  | .null => by
    intro tail rounds level _ _ _ _
    exact ⟨tail, rfl, rfl⟩
  | .bool b => by
    intro tail rounds level _ _ _ _
    cases b <;> exact ⟨tail, rfl, rfl⟩
  | .number n => by
    intro tail rounds level _ hnums _ htail
    exact scanValue_number (hnums n (by simp [numbers])) htail rounds level
  | .string s => by
    intro tail rounds level _ _ _ _
    obtain ⟨rest, hrest, hscan⟩ := scanString_writeString s tail
    have hquote : dropBlanks ('"' :: rest) = '"' :: rest := dropBlanks_cons (by decide) rest
    exact ⟨tail, by simp [write, hrest, scanValue, hquote, hscan, Doc.ofJson], rfl⟩
  | .array items => by
    intro tail rounds level hdepth hnums hrounds _
    simp only [depth, numbers, toList_write_array, List.length_cons, List.length_append, List.length_nil]
      at hdepth hnums hrounds
    obtain ⟨rounds, rfl⟩ := Nat.exists_eq_succ_of_ne_zero (by omega : rounds ≠ 0)
    have hopen : dropBlanks ('[' :: (itemsText true items ++ ']' :: tail)) = _ := dropBlanks_cons (by decide) _
    have hitems := scanItems_write items true tail (by omega : level + 1 + _ < nestingLimit) hnums
      (by omega : _ < rounds + 1)
    have hlevel : level + 1 < nestingLimit := by omega
    exact ⟨tail, by simp [toList_write_array, scanValue, hopen, hitems, Doc.ofJson, hlevel], rfl⟩
  | .object members => by
    intro tail rounds level hdepth hnums hrounds _
    simp only [depth, numbers, toList_write_object, List.length_cons, List.length_append, List.length_nil]
      at hdepth hnums hrounds
    obtain ⟨rounds, rfl⟩ := Nat.exists_eq_succ_of_ne_zero (by omega : rounds ≠ 0)
    have hopen : dropBlanks ('\x7b' :: (membersText true members ++ '\x7d' :: tail)) = _ :=
      dropBlanks_cons (by decide) _
    have hmembers := scanMembers_write members true tail (by omega : level + 1 + _ < nestingLimit) hnums
      (by omega : _ < rounds + 1)
    have hlevel : level + 1 < nestingLimit := by omega
    exact ⟨tail, by simp [toList_write_object, scanValue, hopen, hmembers, Doc.ofJson, hlevel], rfl⟩

theorem scanItems_write : ∀ (items : List Json) (first : Bool) {rounds level} (tail : List Char),
    level + depthOfItems items < nestingLimit → (∀ n ∈ numbersOfItems items, n.Legible) →
    (itemsText first items).length < rounds + 1 →
    scanItems (rounds + 1) level first (itemsText first items ++ ']' :: tail) = (Doc.ofItems items, none, some tail)
  | [] => by
    intro first rounds level tail _ _ _
    rfl
  | item :: rest => by
    intro first rounds level tail hdepth hnums hrounds
    simp only [depthOfItems, numbersOfItems, List.forall_mem_append, itemsText, List.length_append] at *
    have hpos := length_write_pos hnums.1
    obtain ⟨rounds, rfl⟩ := Nat.exists_eq_succ_of_ne_zero (by omega : rounds ≠ 0)
    obtain ⟨more, hvalue, hmore⟩ := scanValue_write item (itemsText false rest ++ ']' :: tail)
      (by omega : level + item.depth < nestingLimit) hnums.1 (by omega : _ ≤ rounds + 1) (closes_itemsText rest tail)
    have hrest := scanItems_write rest false tail (by omega : level + depthOfItems rest < nestingLimit) hnums.2
      (by omega : _ < rounds + 1)
    rw [← scanItems_congr hmore] at hrest
    rw [List.append_assoc, List.append_assoc]
    exact scanItems_item first (dropBlanks_write hnums.1 _) hvalue hrest

theorem scanMembers_write : ∀ (members : List (String × Json)) (first : Bool) {rounds level} (tail : List Char),
    level + depthOfMembers members < nestingLimit → (∀ n ∈ numbersOfMembers members, n.Legible) →
    (membersText first members).length < rounds + 1 →
    scanMembers (rounds + 1) level first (membersText first members ++ '\x7d' :: tail) =
      (Doc.ofMembers members, none, some tail)
  | [] => by
    intro first rounds level tail _ _ _
    rfl
  | (key, item) :: rest => by
    intro first rounds level tail hdepth hnums hrounds
    simp only [depthOfMembers, numbersOfMembers, List.forall_mem_append, membersText, List.length_append,
      List.length_cons] at *
    obtain ⟨rounds, rfl⟩ := Nat.exists_eq_succ_of_ne_zero (by omega : rounds ≠ 0)
    obtain ⟨more, hvalue, hmore⟩ := scanValue_write item _ (by omega : level + item.depth < nestingLimit) hnums.1
      (by omega : _ ≤ rounds + 1) (closes_membersText rest tail)
    have hrest := scanMembers_write rest false tail (by omega : level + depthOfMembers rest < nestingLimit) hnums.2
      (by omega : _ < rounds + 1)
    rw [← scanMembers_congr hmore] at hrest
    rw [List.append_assoc, List.append_assoc, List.cons_append, List.append_assoc]
    exact scanMembers_member first key hvalue hrest

end

/-- The text of a value is scanned as the document of that value, and as nothing else. -/
theorem scan_write (hdepth : j.depth < nestingLimit) (hnums : ∀ n ∈ j.numbers, n.Legible) :
    scan j.write = ⟨Doc.ofJson j, true⟩ := by
  obtain ⟨rest, hscan, hrest⟩ := scanValue_write j _ (by omega : 0 + j.depth < nestingLimit) hnums
    (by omega : j.write.toList.length ≤ 3 * j.write.toList.length + 2 + 1) .nil
  rw [List.append_nil] at hscan
  have hblank : dropBlanks rest = [] := hrest
  simp [scan, hscan, hblank]

end Lowering.Json
