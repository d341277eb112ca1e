import ApiModel.Lookup.Default
import ApiModel.Proofs.Identifiers
import ApiModel.Proofs.Reachable
import Mathlib.Algebra.Order.Field.Rat
import Mathlib.Data.Bool.AllAny
import Mathlib.Tactic.Ring

/-!
Default values that are numbers. A text is taken for a number for its first digit, and only its end
is cleaned. So literals keep their values, but for hexadecimal digits that look like a suffix of C,
and an end that looks like a suffix is lost in other texts, too.
-/

namespace ApiModel

namespace Text

variable {p : Char → Bool} {cs : List Char} {c : Char}

theorem last_dropEndWhile (hc : (dropEndWhile p cs).getLast? = some c) : p c = false := by
  induction cs using List.reverseRecOn with
  | nil => cases hc
  | append_singleton cs d ih =>
    cases hd : p d with
    | false =>
      rw [dropEndWhile_append_of_neg hd, List.getLast?_concat] at hc
      exact Option.some.inj hc ▸ hd
    | true =>
      have hall : ∀ d' ∈ [d], p d' = true := by simpa using hd
      rw [dropEndWhile_append_of_pos hall] at hc
      exact ih hc

theorem dropEndWhile_eq_self_iff :
    dropEndWhile p cs = cs ↔ ∀ c, cs.getLast? = some c → p c = false := by
  constructor
  · intro he c hc
    exact last_dropEndWhile (he.symm ▸ hc)
  · exact dropEndWhile_eq_self_of_last

end Text

namespace DefaultValue

def isHexDigit (c : Char) : Bool := c.isDigit || "abcdefABCDEF".toList.contains c

def digitValue (c : Char) : Nat := "0123456789abcdef".toList.idxOf c.toLower

def number (base : Nat) (digits : List Char) : Nat :=
  digits.foldl (fun n c => n * base + digitValue c) 0

structure Exponent where
  mark : Char
  sign : List Char
  digits : List Char
  deriving DecidableEq, Repr

/-- The parts of a text that may be a number: a minus, the mark `0x`, the digits before and, if
there is a point, behind it, the exponent, and the suffix. -/
structure Numeral where
  sign : List Char
  mark : List Char
  whole : List Char
  fraction : Option (List Char)
  exponent : Option Exponent
  suffix : List Char
  deriving DecidableEq, Repr

def suffixes : List (List Char) :=
  ["", "f", "F", "u", "U", "l", "L", "ll", "LL", "ul", "uL", "Ul", "UL", "ull", "uLL", "Ull", "ULL",
    "lu", "lU", "Lu", "LU", "llu", "llU", "LLu", "LLU"].map String.toList

def digitTest (mark : List Char) : Char → Bool := if mark = [] then Char.isDigit else isHexDigit

def exponentMarks (mark : List Char) : List Char := if mark = [] then ['e', 'E'] else ['p', 'P']

namespace Numeral

variable {n n' : Numeral} {c : Char} {cs ds rest : List Char} {p : Char → Bool}

def pointText (n : Numeral) : List Char :=
  match n.fraction with
  | none => []
  | some digits => '.' :: digits

def exponentText (n : Numeral) : List Char :=
  match n.exponent with
  | none => []
  | some e => e.mark :: (e.sign ++ e.digits)

def tail (n : Numeral) : List Char := n.pointText ++ (n.exponentText ++ n.suffix)

def text (n : Numeral) : List Char := n.sign ++ (n.mark ++ (n.whole ++ n.tail))

/-- The parts are those of a literal. Without a point and an exponent an `f` is a hexadecimal digit,
and a hexadecimal number with a point has an exponent. -/
structure IsLiteral (n : Numeral) : Prop where
  sign : n.sign ∈ [[], ['-']]
  mark : n.mark ∈ [[], ['0', 'x'], ['0', 'X']]
  whole : ∀ c ∈ n.whole, digitTest n.mark c = true
  fraction : ∀ digits, n.fraction = some digits → ∀ c ∈ digits, digitTest n.mark c = true
  digits : n.whole ++ n.fraction.getD [] ≠ []
  exponent : ∀ e, n.exponent = some e → e.mark ∈ exponentMarks n.mark ∧
    e.sign ∈ [[], ['+'], ['-']] ∧ e.digits ≠ [] ∧ ∀ c ∈ e.digits, c.isDigit = true
  suffix : n.suffix ∈ suffixes
  hexSuffix : n.mark ≠ [] → n.exponent = none → n.suffix ∉ [['f'], ['F']]
  hexPoint : n.mark ≠ [] → n.fraction ≠ none → n.exponent ≠ none

instance (n : Numeral) : Decidable n.IsLiteral :=
  decidable_of_iff
    (n.sign ∈ [[], ['-']] ∧ n.mark ∈ [[], ['0', 'x'], ['0', 'X']] ∧
      n.whole.all (digitTest n.mark) = true ∧
      (∀ digits ∈ n.fraction, digits.all (digitTest n.mark) = true) ∧
      n.whole ++ n.fraction.getD [] ≠ [] ∧
      (∀ e ∈ n.exponent, e.mark ∈ exponentMarks n.mark ∧ e.sign ∈ [[], ['+'], ['-']] ∧
        e.digits ≠ [] ∧ e.digits.all Char.isDigit = true) ∧
      n.suffix ∈ suffixes ∧
      (n.mark ≠ [] → n.exponent = none → n.suffix ∉ [['f'], ['F']]) ∧
      (n.mark ≠ [] → n.fraction ≠ none → n.exponent ≠ none)) <| by
    simp only [List.all_eq_true]
    exact ⟨fun ⟨h₁, h₂, h₃, h₄, h₅, h₆, h₇, h₈, h₉⟩ => ⟨h₁, h₂, h₃, h₄, h₅, h₆, h₇, h₈, h₉⟩,
      fun h => ⟨h.sign, h.mark, h.whole, h.fraction, h.digits, h.exponent, h.suffix, h.hexSuffix,
        h.hexPoint⟩⟩

/-- The number that the literal denotes, where decimal integers that begin with a zero are read in
the base `zeroBase`. -/
def value (zeroBase : Nat) (n : Numeral) : ℚ :=
  let base :=
    if n.mark ≠ [] then 16
    else if n.fraction.isNone && n.exponent.isNone && n.whole.head? = some '0' then zeroBase
    else 10
  let scale : ℤ :=
    match n.exponent with
    | none => 0
    | some e => if e.sign = ['-'] then -number 10 e.digits else number 10 e.digits
  (if n.sign = [] then 1 else -1) * number base (n.whole ++ n.fraction.getD []) /
    base ^ (n.fraction.getD []).length * (if n.mark = [] then 10 else 2) ^ scale

theorem takeWhile_append (hds : ∀ c ∈ ds, p c = true)
    (hrest : ∀ c, rest.head? = some c → p c = false) :
    (ds ++ rest).takeWhile p = ds ∧ (ds ++ rest).dropWhile p = rest := by
  rw [List.takeWhile_append_of_pos hds, List.dropWhile_append_of_pos hds]
  cases rest with
  | nil => simp
  | cons c rest => simp [hrest c rfl]

def readFraction (digit : Char → Bool) : List Char → Option (List Char) × List Char
  | '.' :: cs => (some (cs.takeWhile digit), cs.dropWhile digit)
  | cs => (none, cs)

def readExponent (marks : List Char) : List Char → Option Exponent × List Char
  | [] => (none, [])
  | c :: cs =>
    if c ∈ marks then
      let sign := (cs.take 1).filter fun c => c = '+' || c = '-'
      let rest := cs.drop sign.length
      (some ⟨c, sign, rest.takeWhile Char.isDigit⟩, rest.dropWhile Char.isDigit)
    else (none, c :: cs)

def read (cs : List Char) : Numeral :=
  let sign := cs.takeWhile (· = '-')
  let unsigned := cs.dropWhile (· = '-')
  let mark := if isHexadecimal unsigned then unsigned.take 2 else []
  let digits := unsigned.drop mark.length
  let (fraction, rest) :=
    readFraction (digitTest mark) (digits.dropWhile (digitTest mark))
  let (exponent, suffix) := readExponent (exponentMarks mark) rest
  { sign, mark, whole := digits.takeWhile (digitTest mark), fraction, exponent, suffix }

theorem letter_of_suffix {s : List Char} (hs : s ∈ suffixes) (hc : c ∈ s) :
    c ∈ ['f', 'F', 'u', 'U', 'l', 'L'] := by
  have hall : ∀ c ∈ suffixes.flatten, c ∈ ['f', 'F', 'u', 'U', 'l', 'L'] :=
    List.all_iff_forall_prop.mp (by decide)
  exact hall c (List.mem_flatten_of_mem hs hc)

theorem IsLiteral.head_end (h : n.IsLiteral)
    (hc : (n.exponentText ++ n.suffix).head? = some c) :
    digitTest n.mark c = false ∧ c ∉ ['.', 'x', 'X'] ∧
      (n.exponent = none → c ∉ exponentMarks n.mark) := by
  unfold exponentText at hc
  unfold digitTest exponentMarks
  cases he : n.exponent with
  | none =>
    rw [he, List.nil_append] at hc
    have hletter := letter_of_suffix h.suffix (List.mem_of_mem_head? hc)
    by_cases hm : n.mark = []
    · rw [if_pos hm, if_pos hm]
      have hall : ∀ c ∈ ['f', 'F', 'u', 'U', 'l', 'L'],
          c.isDigit = false ∧ c ∉ ['.', 'x', 'X'] ∧ c ∉ ['e', 'E'] :=
        List.all_iff_forall_prop.mp (by decide)
      exact ⟨(hall c hletter).1, (hall c hletter).2.1, fun _ => (hall c hletter).2.2⟩
    · rw [if_neg hm, if_neg hm]
      have hall : ∀ c ∈ (suffixes.filter (· ∉ [['f'], ['F']])).filterMap List.head?,
          isHexDigit c = false ∧ c ∉ ['.', 'x', 'X'] ∧ c ∉ ['p', 'P'] :=
        List.all_iff_forall_prop.mp (by decide)
      have hsuffix : n.suffix ∈ suffixes.filter (· ∉ [['f'], ['F']]) :=
        List.mem_filter.mpr ⟨h.suffix, decide_eq_true (h.hexSuffix hm he)⟩
      obtain ⟨hdigit, hpoint, hmark⟩ := hall c (List.mem_filterMap.mpr ⟨n.suffix, hsuffix, hc⟩)
      exact ⟨hdigit, hpoint, fun _ => hmark⟩
  | some e =>
    rw [he] at hc
    obtain rfl := Option.some.inj hc
    have hmark := (h.exponent e he).1
    unfold exponentMarks at hmark
    by_cases hm : n.mark = []
    · rw [if_pos hm] at hmark ⊢
      have hall : ∀ c ∈ ['e', 'E'], c.isDigit = false ∧ c ∉ ['.', 'x', 'X'] :=
        List.all_iff_forall_prop.mp (by decide)
      exact ⟨(hall _ hmark).1, (hall _ hmark).2, nofun⟩
    · rw [if_neg hm] at hmark ⊢
      have hall : ∀ c ∈ ['p', 'P'], isHexDigit c = false ∧ c ∉ ['.', 'x', 'X'] :=
        List.all_iff_forall_prop.mp (by decide)
      exact ⟨(hall _ hmark).1, (hall _ hmark).2, nofun⟩

theorem IsLiteral.head_tail (h : n.IsLiteral) (hc : n.tail.head? = some c) :
    digitTest n.mark c = false ∧ c ∉ ['x', 'X'] := by
  unfold tail pointText at hc
  cases hf : n.fraction with
  | none =>
    rw [hf, List.nil_append] at hc
    obtain ⟨hdigit, hother, -⟩ := h.head_end hc
    exact ⟨hdigit, fun hx => hother (List.mem_cons_of_mem _ hx)⟩
  | some digits =>
    rw [hf] at hc
    obtain rfl := Option.some.inj hc
    refine ⟨?_, by decide⟩
    unfold digitTest
    split <;> decide

theorem IsLiteral.readExponent_end (h : n.IsLiteral) :
    readExponent (exponentMarks n.mark) (n.exponentText ++ n.suffix) = (n.exponent, n.suffix) := by
  have hhead := fun c => @head_end n c h
  unfold exponentText at hhead ⊢
  cases he : n.exponent with
  | none =>
    rw [he, List.nil_append] at hhead
    cases hs : n.suffix with
    | nil => rfl
    | cons c cs =>
      rw [hs] at hhead
      exact if_neg ((hhead c rfl).2.2 rfl)
  | some e =>
    obtain ⟨hmark, hsign, hne, hdigits⟩ := h.exponent e he
    obtain ⟨mark, sign, digits⟩ := e
    obtain ⟨d, ds, rfl⟩ := List.exists_cons_of_ne_nil hne
    have hd : d ≠ '+' ∧ d ≠ '-' := by
      have hdigit := hdigits d List.mem_cons_self
      constructor <;> rintro rfl <;> exact absurd hdigit (by decide)
    have hends : ∀ c, n.suffix.head? = some c → c.isDigit = false := fun c hc => by
      have hall : ∀ c ∈ ['f', 'F', 'u', 'U', 'l', 'L'], c.isDigit = false :=
        List.all_iff_forall_prop.mp (by decide)
      exact hall c (letter_of_suffix h.suffix (List.mem_of_mem_head? hc))
    obtain ⟨htake, hdrop⟩ := takeWhile_append hdigits hends
    rw [List.cons_append] at htake hdrop
    have hcases : sign = [] ∨ sign = ['+'] ∨ sign = ['-'] := by simpa using hsign
    obtain rfl | rfl | rfl := hcases <;> simp [readExponent, hmark, hd, htake, hdrop]

theorem IsLiteral.readFraction_tail (h : n.IsLiteral) :
    readFraction (digitTest n.mark) n.tail = (n.fraction, n.exponentText ++ n.suffix) := by
  have hhead := fun c => @head_end n c h
  unfold tail pointText
  cases hf : n.fraction with
  | none =>
    rw [List.nil_append]
    generalize n.exponentText ++ n.suffix = rest at hhead
    unfold readFraction
    split
    · exact absurd (hhead '.' rfl).2.1 (by decide)
    · rfl
  | some digits =>
    obtain ⟨htake, hdrop⟩ :=
      takeWhile_append (h.fraction digits hf) fun c hc => (hhead c hc).1
    rw [List.cons_append, readFraction, htake, hdrop]

theorem IsLiteral.head_unsigned (h : n.IsLiteral)
    (hc : (n.mark ++ (n.whole ++ n.tail)).head? = some c) : isHexDigit c = true ∨ c = '.' := by
  have hmark := h.mark
  simp only [List.mem_cons, List.not_mem_nil, or_false] at hmark
  obtain hm | hm | hm := hmark
  · rw [hm, List.nil_append] at hc
    cases hw : n.whole with
    | nil =>
      obtain ⟨digits, hf⟩ : ∃ digits, n.fraction = some digits := by
        have hdigits := h.digits
        rw [hw, List.nil_append] at hdigits
        cases hf : n.fraction with
        | none => exact absurd (congrArg (Option.getD · []) hf) hdigits
        | some digits => exact ⟨digits, rfl⟩
      rw [hw, List.nil_append, tail, pointText, hf] at hc
      exact .inr (Option.some.inj hc).symm
    | cons d ds =>
      rw [hw] at hc
      obtain rfl := Option.some.inj hc
      have hdigit := h.whole d (hw ▸ List.mem_cons_self)
      rw [digitTest, if_pos hm] at hdigit
      exact .inl (by rw [isHexDigit, hdigit, Bool.true_or])
  · rw [hm] at hc
    obtain rfl := Option.some.inj hc
    exact .inl (by decide)
  · rw [hm] at hc
    obtain rfl := Option.some.inj hc
    exact .inl (by decide)

theorem isHexadecimal_eq_false (hdigit : ∀ c ∈ ds, c.isDigit = true)
    (hrest : ∀ c, rest.head? = some c → c.isDigit = false ∧ c ∉ ['x', 'X']) :
    isHexadecimal (ds ++ rest) = false := by
  have hno : ∀ x ∈ ['x', 'X'], ∀ cs, ds ++ rest ≠ '0' :: x :: cs := by
    rintro x hx cs he
    match ds with
    | [] => exact absurd (hrest '0' (by rw [← List.nil_append rest, he]; rfl)).1 (by decide)
    | [_] =>
      refine (hrest x ?_).2 hx
      rw [List.singleton_append, List.cons.injEq] at he
      rw [he.2]
      rfl
    | _ :: d :: _ =>
      obtain rfl : d = x := (List.cons.inj (List.cons.inj he).2).1
      have hall : ∀ x ∈ ['x', 'X'], x.isDigit = false :=
        List.all_iff_forall_prop.mp (by decide)
      exact absurd (hdigit d (by simp)) (by rw [hall d hx]; nofun)
  unfold isHexadecimal
  split
  · next he => exact absurd he (hno 'x' (by decide) _)
  · next he => exact absurd he (hno 'X' (by decide) _)
  · rfl

theorem IsLiteral.isHexadecimal_eq (h : n.IsLiteral) :
    isHexadecimal (n.mark ++ (n.whole ++ n.tail)) = decide (n.mark ≠ []) := by
  have hmark := h.mark
  simp only [List.mem_cons, List.not_mem_nil, or_false] at hmark
  obtain hm | hm | hm := hmark
  · have hdigit : ∀ c ∈ n.whole, c.isDigit = true := by
      intro c hc
      have hdigit := h.whole c hc
      rwa [digitTest, if_pos hm] at hdigit
    have htail : ∀ c, n.tail.head? = some c → c.isDigit = false ∧ c ∉ ['x', 'X'] := by
      intro c hc
      have hhead := h.head_tail hc
      rwa [digitTest, if_pos hm] at hhead
    rw [hm, List.nil_append, decide_eq_false (fun hne => hne rfl)]
    exact isHexadecimal_eq_false hdigit htail
  · rw [hm]
    rfl
  · rw [hm]
    rfl

/-- Literals with the same text have the same parts. -/
theorem IsLiteral.read_text (h : n.IsLiteral) : read n.text = n := by
  have hsign : ∀ c ∈ n.sign, decide (c = '-') = true := by
    have hall : ∀ sign ∈ [[], ['-']], sign.all (· = '-') = true := by decide
    exact List.all_eq_true.mp (hall n.sign h.sign)
  have hunsigned : ∀ c, (n.mark ++ (n.whole ++ n.tail)).head? = some c →
      decide (c = '-') = false := by
    intro c hc
    refine decide_eq_false ?_
    rintro rfl
    exact absurd (h.head_unsigned hc) (by decide)
  have htake : (if isHexadecimal (n.mark ++ (n.whole ++ n.tail)) then
      (n.mark ++ (n.whole ++ n.tail)).take 2 else []) = n.mark := by
    rw [h.isHexadecimal_eq]
    have hmark := h.mark
    simp only [List.mem_cons, List.not_mem_nil, or_false] at hmark
    obtain hm | hm | hm := hmark <;> rw [hm] <;> rfl
  obtain ⟨htakeSign, hdropSign⟩ := takeWhile_append hsign hunsigned
  obtain ⟨htakeWhole, hdropWhole⟩ := takeWhile_append h.whole fun c hc => (h.head_tail hc).1
  simp only [read, text, htakeSign, hdropSign, htake, List.drop_left, htakeWhole, hdropWhole,
    h.readFraction_tail, h.readExponent_end]

example : (read "-1.5e-3f".toList).IsLiteral ∧
    (read "-1.5e-3f".toList).text = "-1.5e-3f".toList := by decide

theorem IsLiteral.eq_of_text (h : n.IsLiteral) (h' : n'.IsLiteral) (he : n.text = n'.text) :
    n = n' := by
  rw [← h.read_text, ← h'.read_text, he]

/-- The literal without its suffix. -/
def body (n : Numeral) : List Char :=
  n.sign ++ (n.mark ++ (n.whole ++ (n.pointText ++ n.exponentText)))

theorem text_eq (n : Numeral) : n.text = n.body ++ n.suffix := by
  simp only [text, tail, body, List.append_assoc]

/-- A literal ends in a decimal digit, a point that nothing follows, or a hexadecimal digit. -/
theorem IsLiteral.last_body (h : n.IsLiteral) (hc : n.body.getLast? = some c) :
    c.isDigit = true ∨ (c = '.' ∧ n.mark = [] ∧ n.fraction = some [] ∧ n.exponent = none) ∨
      (n.mark ≠ [] ∧ n.exponent = none ∧ isHexDigit c = true ∧ n.whole.getLast? = some c) := by
  have hlast : ∀ (front : List Char) {back : List Char}, back ≠ [] →
      (front ++ back).getLast? = some c → back.getLast? = some c := fun front _ hne he => by
    rwa [List.getLast?_append_of_ne_nil front hne] at he
  cases he : n.exponent with
  | some e =>
    obtain ⟨-, -, hne, hdigits⟩ := h.exponent e he
    have htext : n.body =
        (n.sign ++ n.mark ++ n.whole ++ n.pointText ++ e.mark :: e.sign) ++ e.digits := by
      simp [body, exponentText, he]
    rw [htext] at hc
    exact .inl (hdigits c (List.mem_of_getLast? (hlast _ hne hc)))
  | none =>
    cases hf : n.fraction with
    | some digits =>
      have hm : n.mark = [] := by
        by_contra hm
        exact h.hexPoint hm (by rw [hf]; nofun) he
      have htext : n.body = (n.sign ++ n.mark ++ n.whole) ++ '.' :: digits := by
        simp [body, exponentText, pointText, he, hf]
      rw [htext] at hc
      have hend := hlast _ (List.cons_ne_nil _ _) hc
      cases digits with
      | nil => exact .inr (.inl ⟨(Option.some.inj hend).symm, hm, rfl, rfl⟩)
      | cons d ds =>
        have hdigit := h.fraction _ hf c
          (List.mem_of_getLast? (hlast ['.'] (List.cons_ne_nil d ds) hend))
        rw [digitTest, if_pos hm] at hdigit
        exact .inl hdigit
    | none =>
      have hne : n.whole ≠ [] := by
        have hdigits := h.digits
        rwa [hf, Option.getD_none, List.append_nil] at hdigits
      have htext : n.body = (n.sign ++ n.mark) ++ n.whole := by
        simp [body, exponentText, pointText, he, hf]
      rw [htext] at hc
      have hend := hlast _ hne hc
      have hdigit := h.whole c (List.mem_of_getLast? hend)
      by_cases hm : n.mark = []
      · rw [digitTest, if_pos hm] at hdigit
        exact .inl hdigit
      · rw [digitTest, if_neg hm] at hdigit
        exact .inr (.inr ⟨hm, rfl, hdigit, hend⟩)

end Numeral

def Spells (zeroBase : Nat) (cs : List Char) (x : ℚ) : Prop :=
  ∃ n : Numeral, n.IsLiteral ∧ n.text = cs ∧ n.value zeroBase = x

/-- A hexadecimal integer whose last digit is an `f`. -/
structure Numeral.EndsInF (n : Numeral) : Prop where
  mark : n.mark ≠ []
  exponent : n.exponent = none
  suffix : n.suffix = []
  last : ∃ c ∈ n.whole.getLast?, c ∈ ['f', 'F']

section

variable {n : Numeral} {p : Char → Bool} {zeroBase : Nat} {cs ds : List Char}

theorem number_append_singleton (base : Nat) (digits : List Char) (c : Char) :
    number base (digits ++ [c]) = number base digits * base + digitValue c := by
  rw [number, List.foldl_append]
  rfl

theorem Numeral.dropEndWhile_text
    (hlast : Text.dropEndWhile p n.suffix = [] → ∀ c, n.body.getLast? = some c → p c = false) :
    Text.dropEndWhile p n.text = { n with suffix := Text.dropEndWhile p n.suffix }.text := by
  rw [text_eq, text_eq, Text.dropEndWhile_append]
  split
  · next hnil =>
    rw [hnil, List.append_nil]
    exact Text.dropEndWhile_eq_self_of_last (hlast hnil)
  · rfl

theorem Numeral.IsLiteral.withSuffix (h : n.IsLiteral) {suffix : List Char}
    (hs : suffix ∈ suffixes)
    (hx : n.mark ≠ [] → n.exponent = none → suffix ∉ [['f'], ['F']]) :
    { n with suffix }.IsLiteral := { h with suffix := hs, hexSuffix := hx }

theorem spells_cleanInteger (h : n.IsLiteral) (zeroBase : Nat) :
    Spells zeroBase (cleanInteger n.text) (n.value zeroBase) := by
  unfold cleanInteger
  split
  · have hall : ∀ s ∈ suffixes,
        Text.dropEndWhile (fun c => c = 'u' || c = 'U' || c = 'l' || c = 'L') s ∈ suffixes ∧
        (s ∉ [['f'], ['F']] →
          Text.dropEndWhile (fun c => c = 'u' || c = 'U' || c = 'l' || c = 'L') s ∉
            [['f'], ['F']]) := by decide
    obtain ⟨hmem, hx⟩ := hall n.suffix h.suffix
    rw [Numeral.dropEndWhile_text fun _ c hc => ?_]
    · exact ⟨_, h.withSuffix hmem fun hm he => hx (h.hexSuffix hm he), rfl, rfl⟩
    · have hdigit : isHexDigit c = true ∨ c = '.' := by
        obtain hd | ⟨hpoint, -⟩ | ⟨-, -, hd, -⟩ := h.last_body hc
        · exact .inl (by rw [isHexDigit, hd, Bool.true_or])
        · exact .inr hpoint
        · exact .inl hd
      rw [← Bool.not_eq_true]
      intro hp
      simp only [Bool.or_eq_true, decide_eq_true_eq] at hp
      obtain ((rfl | rfl) | rfl) | rfl := hp <;> exact absurd hdigit (by decide)
  · exact ⟨n, h, rfl, rfl⟩

theorem spells_append_zero (h : n.IsLiteral) (hp : n.text.getLast? = some '.')
    (zeroBase : Nat) : Spells zeroBase (n.text ++ ['0']) (n.value zeroBase) := by
  have hsuffix : n.suffix = [] := by
    by_contra hne
    rw [n.text_eq, List.getLast?_append_of_ne_nil _ hne] at hp
    exact absurd (Numeral.letter_of_suffix h.suffix (List.mem_of_getLast? hp)) (by decide)
  rw [n.text_eq, hsuffix, List.append_nil] at hp
  obtain hd | ⟨-, hm, hf, he⟩ | ⟨-, -, hd, -⟩ := h.last_body hp
  · exact absurd hd (by decide)
  · refine ⟨{ n with fraction := some ['0'] }, ?_, ?_, ?_⟩
    · exact { h with
        fraction := fun digits hdigits c hc => by
          obtain rfl := Option.some.inj hdigits
          obtain rfl := List.mem_singleton.mp hc
          rw [digitTest, if_pos hm]
          decide
        digits := by simp
        hexPoint := fun hx => absurd hm hx }
    · simp [Numeral.text, Numeral.tail, Numeral.pointText, Numeral.exponentText, hf, he, hsuffix]
    · simp only [Numeral.value, hf, he, hm, ne_eq, not_true_eq_false, if_false, Option.isNone_some,
        Bool.false_and, Option.getD_some, List.append_nil, number_append_singleton]
      have hzero : digitValue '0' = 0 := by decide
      rw [hzero, List.length_singleton, List.length_nil]
      push_cast
      ring
  · exact absurd hd (by decide)

theorem spells_cleanDouble (h : n.IsLiteral) (zeroBase : Nat) :
    Spells zeroBase (cleanDouble n.text) (n.value zeroBase) := by
  unfold cleanDouble
  split
  · next hp =>
    rw [Bool.and_eq_true, decide_eq_true_eq] at hp
    exact spells_append_zero h hp.2 zeroBase
  · exact ⟨n, h, rfl, rfl⟩

theorem isFloatSuffix_iff {c : Char} :
    (decide (c = 'f') || decide (c = 'F')) = true ↔ c ∈ ['f', 'F'] := by simp

theorem spells_cleanFloat (h : n.IsLiteral) (hends : ¬ n.EndsInF) (zeroBase : Nat) :
    Spells zeroBase (cleanFloat n.text) (n.value zeroBase) := by
  unfold cleanFloat
  split
  · have hall : ∀ s ∈ suffixes,
        Text.dropEndWhile (fun c => c = 'f' || c = 'F') s ∈ suffixes ∧
        Text.dropEndWhile (fun c => c = 'f' || c = 'F') s ∉ [['f'], ['F']] ∧
        (s ∉ [['f'], ['F']] → Text.dropEndWhile (fun c => c = 'f' || c = 'F') s = s) := by
      decide
    obtain ⟨hmem, hx, hkept⟩ := hall n.suffix h.suffix
    rw [Numeral.dropEndWhile_text fun hnil c hc => ?_]
    · exact spells_cleanDouble (h.withSuffix hmem fun _ _ => hx) zeroBase
    · rw [← Bool.not_eq_true, isFloatSuffix_iff]
      intro hf
      have hdigit : ∀ c ∈ ['f', 'F'], c.isDigit = false ∧ c ≠ '.' :=
        List.all_iff_forall_prop.mp (by decide)
      obtain hd | ⟨hpoint, -⟩ | ⟨hm, he, -, hlast⟩ := h.last_body hc
      · exact absurd hd (by rw [(hdigit c hf).1]; nofun)
      · exact (hdigit c hf).2 hpoint
      · have hsuffix : n.suffix = [] := by rw [← hkept (h.hexSuffix hm he), hnil]
        exact hends ⟨hm, he, hsuffix, c, hlast, hf⟩
  · exact ⟨n, h, rfl, rfl⟩

theorem number_dropEndWhile_le (p : Char → Bool) (digits : List Char) :
    number 16 (Text.dropEndWhile p digits) ≤ number 16 digits := by
  induction digits using List.reverseRecOn with
  | nil => exact le_rfl
  | append_singleton digits c ih =>
    cases hc : p c with
    | false => rw [Text.dropEndWhile_append_of_neg hc]
    | true =>
      have hall : ∀ d ∈ [c], p d = true := by simpa using hc
      rw [Text.dropEndWhile_append_of_pos hall, number_append_singleton]
      omega

theorem number_dropEndWhile_lt {c : Char} {digits : List Char} (hlast : digits.getLast? = some c)
    (hc : c ∈ ['f', 'F']) :
    number 16 (Text.dropEndWhile (fun c => c = 'f' || c = 'F') digits) < number 16 digits := by
  obtain ⟨front, rfl⟩ := List.getLast?_eq_some_iff.mp hlast
  have hall : ∀ d ∈ [c], (decide (d = 'f') || decide (d = 'F')) = true := by
    rintro d hd
    obtain rfl := List.mem_singleton.mp hd
    exact isFloatSuffix_iff.mpr hc
  have hvalue : ∀ c ∈ ['f', 'F'], digitValue c = 15 := List.all_iff_forall_prop.mp (by decide)
  have hle := number_dropEndWhile_le (fun c => c = 'f' || c = 'F') front
  rw [Text.dropEndWhile_append_of_pos hall, number_append_singleton, hvalue c hc]
  omega

theorem Numeral.value_hexadecimal (hm : n.mark ≠ []) (hf : n.fraction = none)
    (he : n.exponent = none) (zeroBase : Nat) :
    n.value zeroBase = (if n.sign = [] then 1 else -1) * number 16 n.whole := by
  simp [value, hm, hf, he]

theorem isNumeric_of_mark {sign mark : List Char} (hs : sign ∈ [[], ['-']])
    (hm : mark ∈ [['0', 'x'], ['0', 'X']]) :
    (∀ cs, isNumeric ((sign ++ mark) ++ cs) = true) ∧
      Text.dropEndWhile (fun c => c = 'f' || c = 'F') (sign ++ mark) = sign ++ mark ∧
      (sign ++ mark).getLast? ≠ some '.' ∧
      Numeral.read (sign ++ mark) = ⟨sign, mark, [], none, none, []⟩ := by
  simp only [List.mem_cons, List.not_mem_nil, or_false] at hs hm
  obtain rfl | rfl := hs <;> obtain rfl | rfl := hm <;>
    exact ⟨fun _ => rfl, by decide, by decide, by decide⟩

theorem Numeral.text_of_integer (hf : n.fraction = none) (he : n.exponent = none)
    (hs : n.suffix = []) : n.text = (n.sign ++ n.mark) ++ n.whole := by
  simp [text, tail, pointText, exponentText, hf, he, hs]

/-- The last digits of a hexadecimal integer are dropped like a suffix. -/
theorem cleanFloat_hexadecimal (h : n.IsLiteral) (hm : n.mark ≠ []) (hf : n.fraction = none)
    (he : n.exponent = none) (hs : n.suffix = []) :
    cleanFloat n.text =
      (n.sign ++ n.mark) ++ Text.dropEndWhile (fun c => c = 'f' || c = 'F') n.whole := by
  obtain ⟨hnumeric, hfront, hpoint, -⟩ :=
    isNumeric_of_mark h.sign ((List.mem_cons.mp h.mark).resolve_left hm)
  set digits := Text.dropEndWhile (fun c => c = 'f' || c = 'F') n.whole with hdigits
  have hsub : ∀ d ∈ digits, digitTest n.mark d = true := fun d hd =>
    h.whole d ((Text.dropEndWhile_sublist _ _).subset hd)
  have htrimmed : Text.dropEndWhile (fun c => c = 'f' || c = 'F')
      ((n.sign ++ n.mark) ++ n.whole) = (n.sign ++ n.mark) ++ digits := by
    rw [Text.dropEndWhile_append, ← hdigits]
    split
    · next hnil => rw [hfront, hnil, List.append_nil]
    · rfl
  rw [n.text_of_integer hf he hs, cleanFloat, if_pos (hnumeric _), htrimmed, cleanDouble, if_neg]
  rw [Bool.and_eq_true, decide_eq_true_eq, not_and]
  intro _ hlast
  by_cases hnil : digits = []
  · rw [hnil, List.append_nil] at hlast
    exact hpoint hlast
  · rw [List.getLast?_append_of_ne_nil _ hnil] at hlast
    have hdigit := hsub '.' (List.mem_of_getLast? hlast)
    rw [digitTest, if_neg hm] at hdigit
    exact absurd hdigit (by decide)

theorem not_spells_cleanFloat (h : n.IsLiteral) (hends : n.EndsInF) (zeroBase : Nat) :
    ¬ Spells zeroBase (cleanFloat n.text) (n.value zeroBase) := by
  obtain ⟨hm, he, hs, c, hlast, hc⟩ := hends
  have hf : n.fraction = none := by
    by_contra hf
    exact h.hexPoint hm hf he
  rw [cleanFloat_hexadecimal h hm hf he hs]
  rintro ⟨n', h', htext, hvalue⟩
  set digits := Text.dropEndWhile (fun c => c = 'f' || c = 'F') n.whole
  by_cases hnil : digits = []
  · obtain ⟨-, -, -, hread⟩ :=
      isNumeric_of_mark h.sign ((List.mem_cons.mp h.mark).resolve_left hm)
    have hnothing : n' = ⟨n.sign, n.mark, [], none, none, []⟩ := by
      rw [← hread, ← h'.read_text, htext, hnil, List.append_nil]
    exact h'.digits (by rw [hnothing]; rfl)
  · have hless : { n with whole := digits }.IsLiteral := { h with
      whole := fun d hd => h.whole d ((Text.dropEndWhile_sublist _ _).subset hd)
      digits := fun hempty => hnil (List.append_eq_nil_iff.mp hempty).1 }
    have hrest := @Numeral.text_of_integer { n with whole := digits } hf he hs
    have heq : n' = { n with whole := digits } := h'.eq_of_text hless (htext.trans hrest.symm)
    have hsmaller := @Numeral.value_hexadecimal { n with whole := digits } hm hf he zeroBase
    rw [heq, hsmaller, Numeral.value_hexadecimal hm hf he] at hvalue
    have hsign : (if n.sign = [] then (1 : ℚ) else -1) ≠ 0 := by split <;> norm_num
    have hsame := Nat.cast_injective (mul_left_cancel₀ hsign hvalue)
    exact absurd hsame (number_dropEndWhile_lt hlast hc).ne

/-- The text begins like a number, and its end looks like one that is cleaned for types of the
name. -/
def isCut (typeName : String) (cs : List Char) : Bool :=
  isNumeric cs && cs.getLast?.any fun c =>
    if typeName = "float" then ['f', 'F', '.'].contains c
    else if typeName = "double" then c = '.'
    else !isHexadecimal cs && ['u', 'U', 'l', 'L'].contains c

theorem cleanDouble_eq_self_iff :
    cleanDouble cs = cs ↔ ¬ (isNumeric cs = true ∧ cs.getLast? = some '.') := by
  unfold cleanDouble
  split
  · next h => simp_all
  · next h => simpa using h

theorem cleanInteger_eq_self_iff : cleanInteger cs = cs ↔
    ¬ (isNumeric cs = true ∧ isHexadecimal cs = false ∧
      ∃ c ∈ cs.getLast?, c ∈ ['u', 'U', 'l', 'L']) := by
  unfold cleanInteger
  split
  · next h =>
    rw [Text.dropEndWhile_eq_self_iff]
    simp_all [and_assoc]
  · next h =>
    simp_all

/-- Where an `f` is dropped the text is another one, also if a zero is put in its place. -/
theorem cleanFloat_eq_self_iff : cleanFloat cs = cs ↔
    ¬ (isNumeric cs = true ∧ ∃ c ∈ cs.getLast?, c ∈ ['f', 'F', '.']) := by
  unfold cleanFloat
  split
  · next hnumeric =>
    by_cases hf : ∃ c ∈ cs.getLast?, c ∈ ['f', 'F']
    · obtain ⟨c, hc, hf⟩ := hf
      have hend : c ∈ ['f', 'F', '.'] := List.mem_append_left ['.'] hf
      refine iff_of_false (fun he => ?_) (not_not_intro ⟨hnumeric, c, hc, hend⟩)
      have hlast : c = '0' ∨ (decide (c = 'f') || decide (c = 'F')) = false := by
        rw [← he] at hc
        unfold cleanDouble at hc
        split at hc
        · rw [List.getLast?_concat] at hc
          exact .inl (Option.some.inj hc).symm
        · exact .inr (Text.last_dropEndWhile hc)
      obtain rfl | hlast := hlast
      · exact absurd hf (by decide)
      · rw [isFloatSuffix_iff.mpr hf] at hlast
        cases hlast
    · have hsame : Text.dropEndWhile (fun c => c = 'f' || c = 'F') cs = cs :=
        Text.dropEndWhile_eq_self_iff.mpr fun c hc => by
          rw [← Bool.not_eq_true, isFloatSuffix_iff]
          exact fun hmem => hf ⟨c, hc, hmem⟩
      rw [hsame, cleanDouble_eq_self_iff]
      cases hlast : cs.getLast? <;> simp_all
  · next h => simp_all

theorem clean_eq_self_iff {typeName text : String} :
    clean typeName text = text ↔ isCut typeName text.toList = false := by
  rw [← String.toList_inj, clean, String.toList_ofList, isCut]
  split
  · rw [cleanFloat_eq_self_iff]
    cases text.toList.getLast? <;> simp_all
  · split
    · rw [cleanDouble_eq_self_iff]
      cases text.toList.getLast? <;> simp_all
    · rw [cleanInteger_eq_self_iff]
      cases text.toList.getLast? <;> simp_all

end

end DefaultValue

namespace Model

open DefaultValue DefaultValue.Numeral

/-- The default value of a parameter of a basic type or a pointer always has a cleaned up form. Of a
literal it is one for the same number, unless the literal is a hexadecimal integer for a `float` and
ends in a digit that is taken for the suffix `f`. All other texts stay as they are exactly if they
are not cut. -/
theorem normalizedDefault_literal {m : Model} {parameter : Parameter} {value : String}
    (hkind : (m.node parameter.type.base).isBasic = true ∨ parameter.type.isPointer = true)
    (hvalue : parameter.defaultValue = some value) (scope : TypeId) (operation : String) :
    ∃ text, m.normalizedDefault scope operation parameter = .ok (some text) ∧
      (∀ n : Numeral, n.IsLiteral → n.text = value.toList → ∀ zeroBase,
        (Spells zeroBase text.toList (n.value zeroBase) ↔
          ¬ ((m.node parameter.type.base).name = "float" ∧ n.EndsInF))) ∧
      (text = value ↔ isCut (m.node parameter.type.base).name value.toList = false) := by
  refine ⟨clean (m.node parameter.type.base).name value, ?_, ?_, clean_eq_self_iff⟩
  · simp [normalizedDefault, hvalue, hkind]
  · intro n h htext zeroBase
    rw [clean, String.toList_ofList, ← htext]
    split
    · next hfloat =>
      by_cases hends : n.EndsInF
      · exact iff_of_false (not_spells_cleanFloat h hends zeroBase)
          (not_not_intro ⟨hfloat, hends⟩)
      · exact iff_of_true (spells_cleanFloat h hends zeroBase) fun hboth => hends hboth.2
    · next hfloat =>
      refine iff_of_true ?_ fun hboth => hfloat hboth.1
      split
      · exact spells_cleanDouble h zeroBase
      · exact spells_cleanInteger h zeroBase

def bareWithNumbers : Model :=
  bare.afterAll [.addType .root { entity := { name := "int" }, kind := .basic } true,
    .addType .root { entity := { name := "float" }, kind := .basic } true]

theorem reachable_bareWithNumbers : Reachable .free bareWithNumbers := by
  refine reachable_bare.afterAll fun action ha m => ?_
  simp only [List.mem_cons, List.not_mem_nil, or_false] at ha
  obtain rfl | rfl := ha
  · exact ⟨⟨rfl, nofun, rfl⟩, nofun, nofun, nofun, rfl, nofun⟩
  · exact ⟨⟨rfl, nofun, rfl⟩, nofun, nofun, nofun, rfl, nofun⟩

def intWithDefault (value : String) : Parameter :=
  { entity := { name := "flags" }, type := .raw ⟨1⟩, defaultValue := some value }

def floatWithDefault (value : String) : Parameter :=
  { entity := { name := "scale" }, type := .raw ⟨2⟩, defaultValue := some value }

/-- The literal `1.f` becomes another one for the same number. -/
theorem normalizedDefault_literal_of_float : ∃ text,
    bareWithNumbers.normalizedDefault .root "f" (floatWithDefault "1.f") = .ok (some text) ∧
      text ≠ "1.f" ∧
      ∀ zeroBase, Spells zeroBase text.toList ((read "1.f".toList).value zeroBase) := by
  have hkind : (bareWithNumbers.node (floatWithDefault "1.f").type.base).isBasic = true := by
    decide +kernel
  have hvalue : (floatWithDefault "1.f").defaultValue = some "1.f" := rfl
  obtain ⟨text, hok, hliteral, hsame⟩ :=
    normalizedDefault_literal (.inl hkind) hvalue .root "f"
  refine ⟨text, hok, ?_, fun zeroBase => ?_⟩
  · rw [ne_eq, hsame]
    decide +kernel
  · refine (hliteral _ (by decide) (by decide) zeroBase).mpr ?_
    rintro ⟨-, hends⟩
    exact hends.mark (by decide)

/-- Of the expression `1 | FULL`, which is no literal, the end is cut off, and so are the digits of
the literal `0xFF`, which is left without a number. -/
theorem default_ends_lost : ∃ m, Reachable .free m ∧
    (∃ parameter : Parameter, (m.node parameter.type.base).isBasic = true ∧
      parameter.defaultValue = some "1 | FULL" ∧
      (∀ n : Numeral, n.IsLiteral → n.text ≠ "1 | FULL".toList) ∧
      m.normalizedDefault .root "f" parameter = .ok (some "1 | F")) ∧
    ∃ parameter : Parameter, (m.node parameter.type.base).isBasic = true ∧
      ∃ n : Numeral, n.IsLiteral ∧ n.text = "0xFF".toList ∧
        parameter.defaultValue = some "0xFF" ∧
        m.normalizedDefault .root "f" parameter = .ok (some "0x") ∧
        ∀ zeroBase, ¬ Spells zeroBase "0x".toList (n.value zeroBase) := by
  refine ⟨_, reachable_bareWithNumbers,
    ⟨intWithDefault "1 | FULL", by decide +kernel, rfl, fun n h htext => ?_, by decide +kernel⟩,
    floatWithDefault "0xFF", by decide +kernel, read "0xFF".toList, by decide, by decide, rfl,
    by decide +kernel, fun zeroBase => ?_⟩
  · have hsuffix := h.suffix
    rw [← h.read_text, htext] at hsuffix
    exact absurd hsuffix (by decide)
  · exact not_spells_cleanFloat (n := read "0xFF".toList) (by decide)
      ⟨by decide, by decide, by decide, 'F', by decide, by decide⟩ zeroBase

end Model

end ApiModel
