import Mathlib.Data.List.Chain
import ApiModel.Proofs.Mangling
import ApiModel.Proofs.Names

/-!
Export names of types. A type name is read as a list of tokens, the identifiers and the signs
between them, and its export name as the list of the parts between the underscores. These parts are
all that an export name keeps of a type name: most signs leave nothing but the border between two
parts.
-/

namespace ApiModel

namespace Text

variable {c : Char}

def blankRanges : Ranges :=
  [(0x85, 0x85), (0xA0, 0xA0), (0x1680, 0x1680), (0x2000, 0x200A), (0x2028, 0x2029),
   (0x202F, 0x202F), (0x205F, 0x205F), (0x3000, 0x3000)]

theorem alphanumericRanges_apart : ∀ range ∈ alphanumericRanges, ∀ blank ∈ blankRanges,
    range.2 < blank.1 ∨ blank.2 < range.1 := by decide +kernel

theorem isBlank_of_isAlphanum : ∀ code < 0x80,
    (Char.ofNat code).isAlphanum = true → isBlank (Char.ofNat code) = false := by decide +kernel

theorem isBlank_of_isAlphanumeric (h : isAlphanumeric c = true) : isBlank c = false := by
  rw [isAlphanumeric] at h
  split at h
  · next hascii =>
    have hcode := isBlank_of_isAlphanum c.toNat hascii
    rw [Char.ofNat_toNat] at hcode
    exact hcode h
  · next hascii =>
    by_contra hblank
    rw [Bool.not_eq_false] at hblank
    simp only [isBlank, Bool.or_eq_true, Bool.and_eq_true, decide_eq_true_eq, or_assoc,
      ← UInt32.toNat_inj, UInt32.le_iff_toNat_le, Char.ext_iff] at hblank
    obtain ⟨range, hrange, hlow, hhigh⟩ := Ranges.contains_iff.mp h
    have hapart := alphanumericRanges_apart range hrange
    simp only [blankRanges, List.forall_mem_cons, List.not_mem_nil, false_imp_iff,
      implies_true, and_true] at hapart
    simp only [Char.toNat, UInt32.reduceToNat, Char.reduceVal] at *
    omega

end Text

namespace TypeName

open ExportName

/-- A piece of a written type: an identifier or one of `::`, `<`, `,`, `>`, `*` and `&`. -/
inductive Token where
  | word (text : List Char)
  | separator
  | opening
  | comma
  | closing
  | pointer
  | reference
  deriving DecidableEq

def Token.text : Token → List Char
  | word text => text
  | separator => [':', ':']
  | opening => ['<']
  | comma => [',']
  | closing => ['>']
  | pointer => ['*']
  | reference => ['&']

def chars (tokens : List Token) : List Char := tokens.flatMap Token.text

def write (tokens : List Token) : String := String.ofList (chars tokens)

structure IsIdentifier (text : List Char) : Prop where
  ne_nil : text ≠ []
  alphanumeric : ∀ c ∈ text, Text.isAlphanumeric c = true
  ne_operator : text ≠ operatorKeyword

instance (text : List Char) : Decidable (IsIdentifier text) :=
  decidable_of_iff (text ≠ [] ∧ text.all Text.isAlphanumeric = true ∧ text ≠ operatorKeyword)
    ⟨fun h => ⟨h.1, List.all_eq_true.mp h.2.1, h.2.2⟩,
      fun h => ⟨h.1, List.all_eq_true.mpr h.2, h.3⟩⟩

inductive Form where
  | part
  | path
  | type
  | arguments
  deriving DecidableEq

/-- The grammar of type names. The parts of a path are separated by `::`, each may have template
arguments, and any number of markers follows the path. -/
inductive Written : Form → List Token → Prop
  | name {text : List Char} (identifier : IsIdentifier text) : Written .part [.word text]
  | template {text : List Char} {arguments : List Token} (identifier : IsIdentifier text)
      (inner : Written .arguments arguments) :
      Written .part (.word text :: .opening :: (arguments ++ [.closing]))
  | single {part : List Token} (first : Written .part part) : Written .path part
  | member {path part : List Token} (outer : Written .path path) (last : Written .part part) :
      Written .path (path ++ .separator :: part)
  | marked {path markers : List Token} (unmarked : Written .path path)
      (isMarker : ∀ token ∈ markers, token = .pointer ∨ token = .reference) :
      Written .type (path ++ markers)
  | argument {type : List Token} (first : Written .type type) : Written .arguments type
  | further {arguments type : List Token} (front : Written .arguments arguments)
      (last : Written .type type) : Written .arguments (arguments ++ .comma :: type)

def IsTypeName (tokens : List Token) : Prop := Written .type tokens

def Token.Apart (a b : Token) : Prop := ∀ text text', ¬ (a = word text ∧ b = word text')

structure Spaced (tokens : List Token) : Prop where
  identifier : ∀ text, .word text ∈ tokens → IsIdentifier text
  apart : tokens.IsChain Token.Apart

variable {tokens front back a b : List Token} {token : Token} {text : List Char} {c : Char}

theorem Spaced.join (hf : Spaced front) (hb : Spaced back) (ht : ∀ text, token ≠ .word text) :
    Spaced (front ++ token :: back) where
  identifier text h := by
    rw [List.mem_append, List.mem_cons] at h
    obtain h | h | h := h
    · exact hf.identifier text h
    · exact absurd h.symm (ht text)
    · exact hb.identifier text h
  apart := by
    refine List.isChain_append.mpr ⟨hf.apart, ?_, ?_⟩
    · refine List.isChain_cons.mpr ⟨?_, hb.apart⟩
      exact fun next _ text _ h => ht text h.1
    · rintro last - next hnext text text' ⟨-, h⟩
      rw [List.head?_cons, Option.mem_some_iff] at hnext
      exact ht text' (hnext.trans h)

theorem Spaced.nil : Spaced [] := ⟨nofun, .nil⟩

theorem Spaced.tail (h : Spaced (token :: tokens)) : Spaced tokens :=
  ⟨fun text ht => h.identifier text (List.mem_cons_of_mem _ ht), h.apart.tail⟩

theorem Written.spaced {form : Form} (h : Written form tokens) : Spaced tokens := by
  have hword : ∀ {text}, IsIdentifier text → Spaced [.word text] := fun {text} hi =>
    ⟨fun text' h => by
      obtain rfl := Token.word.inj (List.mem_singleton.mp h)
      exact hi, .singleton _⟩
  induction h with
  | name identifier => exact hword identifier
  | template identifier _ ih =>
    exact (hword identifier).join (ih.join .nil nofun) nofun
  | single _ ih | argument _ ih => exact ih
  | member _ _ outer last => exact outer.join last nofun
  | marked _ isMarker ih =>
    next path markers _ =>
    have hnone : ∀ token ∈ markers, ∀ text, token ≠ .word text := fun token ht text he => by
      obtain rfl | rfl := isMarker token ht <;> cases he
    clear isMarker
    -- the markers are put behind the path one by one
    induction markers using List.reverseRecOn with
    | nil => simpa using ih
    | append_singleton markers marker hrec =>
      rw [← List.append_assoc]
      refine Spaced.join (hrec fun token ht => hnone token (List.mem_append_left _ ht)) .nil ?_
      exact hnone marker (List.mem_append_right _ List.mem_cons_self)
  | further _ _ front last => exact front.join last nofun

def prependWord (word : List Char) : List (List Char) → List (List Char)
  | [] => [word]
  | part :: parts => (word ++ part) :: parts

/-- The parts between the underscores of an export name. Every sign begins a new part, a marker one
with its word in front; a closing bracket at the very end is left out. -/
def parts : List Token → List (List Char)
  | [] => [[]]
  | [.closing] => [[]]
  | .word text :: tokens => prependWord text (parts tokens)
  | .pointer :: tokens => [] :: prependWord ['p', 't', 'r'] (parts tokens)
  | .reference :: tokens => [] :: prependWord ['r', 'e', 'f'] (parts tokens)
  | _ :: tokens => [] :: parts tokens

theorem prependWord_ne_nil (word : List Char) (ps : List (List Char)) :
    prependWord word ps ≠ [] := by
  cases ps <;> simp [prependWord]

theorem parts_ne_nil (tokens : List Token) : parts tokens ≠ [] := by
  fun_cases parts tokens <;> simp [prependWord_ne_nil]

theorem intercalate_nil_cons {ps : List (List Char)} (h : ps ≠ []) :
    ['_'].intercalate ([] :: ps) = '_' :: ['_'].intercalate ps := by
  obtain ⟨part, ps, rfl⟩ := List.exists_cons_of_ne_nil h
  simp [List.intercalate]

theorem intercalate_prependWord (word : List Char) {ps : List (List Char)} (h : ps ≠ []) :
    ['_'].intercalate (prependWord word ps) = word ++ ['_'].intercalate ps := by
  obtain ⟨part, ps, rfl⟩ := List.exists_cons_of_ne_nil h
  cases ps <;> simp [prependWord, List.intercalate]

theorem manglePath_word (h : ∀ c ∈ text, Text.isAlphanumeric c = true) (rest : List Char) :
    manglePath (text ++ rest) = text ++ manglePath rest := by
  induction text with
  | nil => rfl
  | cons c text ih =>
    obtain ⟨hc, htext⟩ := List.forall_mem_cons.mp h
    have hident : Text.isIdentChar c = true := by simp [Text.isIdentChar, hc]
    have hsign : ∀ sign, Text.isAlphanumeric sign = false → c ≠ sign := by
      rintro _ hs rfl
      rw [hc] at hs
      cases hs
    rw [List.cons_append, manglePath, if_pos hident, ih htext, List.cons_append]
    · exact fun _ h _ => hsign ':' (by decide) h
    · exact hsign '>' (by decide)
    · exact hsign '*' (by decide)
    · exact hsign '&' (by decide)

theorem chars_ne_nil (h : ∀ text, .word text ∈ tokens → IsIdentifier text) (hne : tokens ≠ []) :
    chars tokens ≠ [] := by
  obtain ⟨token, tokens, rfl⟩ := List.exists_cons_of_ne_nil hne
  rw [chars, List.flatMap_cons]
  cases token with
  | word text => simp [Token.text, (h text List.mem_cons_self).ne_nil]
  | _ => simp [Token.text]

theorem manglePath_chars (h : ∀ text, .word text ∈ tokens → IsIdentifier text) :
    manglePath (chars tokens) = ['_'].intercalate (parts tokens) := by
  induction tokens with
  | nil => rfl
  | cons token tokens ih =>
    have hrest := ih fun text ht => h text (List.mem_cons_of_mem _ ht)
    have hne := parts_ne_nil tokens
    rw [chars, List.flatMap_cons, ← chars]
    cases token with
    | word text =>
      rw [Token.text, manglePath_word (h text List.mem_cons_self).alphanumeric, hrest, parts,
        intercalate_prependWord _ hne]
    | closing =>
      rw [Token.text, List.singleton_append, manglePath]
      cases tokens with
      | nil => rfl
      | cons next tokens =>
        rw [if_neg (chars_ne_nil (fun text ht => h text (List.mem_cons_of_mem _ ht))
          (List.cons_ne_nil _ _)), hrest]
        exact (intercalate_nil_cons hne).symm
    | pointer | reference =>
      rw [Token.text, List.singleton_append, manglePath, hrest, parts,
        intercalate_nil_cons (prependWord_ne_nil _ _), intercalate_prependWord _ hne]
      rfl
    | separator =>
      rw [Token.text, List.cons_append, List.singleton_append, manglePath, hrest]
      exact (intercalate_nil_cons hne).symm
    | opening | comma =>
      rw [Token.text, List.singleton_append, manglePath, if_neg (by decide), hrest]
      · exact (intercalate_nil_cons hne).symm
      all_goals simp

theorem underscore_not_mem_parts (h : ∀ text, .word text ∈ tokens → IsIdentifier text) :
    ∀ part ∈ parts tokens, '_' ∉ part := by
  have hprepend : ∀ {word : List Char} {ps : List (List Char)}, '_' ∉ word →
      (∀ part ∈ ps, '_' ∉ part) → ∀ part ∈ prependWord word ps, '_' ∉ part := by
    intro word ps hword hps part hpart
    cases ps with
    | nil =>
      obtain rfl := List.mem_singleton.mp hpart
      exact hword
    | cons first ps =>
      obtain ⟨hfirst, hps⟩ := List.forall_mem_cons.mp hps
      obtain rfl | hpart := List.mem_cons.mp hpart
      · exact fun hm => (List.mem_append.mp hm).elim hword hfirst
      · exact hps part hpart
  induction tokens with
  | nil => simp [parts]
  | cons token tokens ih =>
    have hrest := ih fun text ht => h text (List.mem_cons_of_mem _ ht)
    cases token with
    | word text =>
      refine hprepend (fun hm => ?_) hrest
      exact absurd ((h text List.mem_cons_self).alphanumeric _ hm) (by decide)
    | pointer | reference =>
      exact List.forall_mem_cons.mpr ⟨List.not_mem_nil, hprepend (by decide) hrest⟩
    | closing =>
      cases tokens with
      | nil => simp [parts]
      | cons => exact List.forall_mem_cons.mpr ⟨List.not_mem_nil, hrest⟩
    | _ => exact List.forall_mem_cons.mpr ⟨List.not_mem_nil, hrest⟩

theorem Token.not_alphanumeric (h : ∀ text, token ≠ .word text) (hc : c ∈ token.text) :
    Text.isAlphanumeric c = false := by
  cases token with
  | word text => exact absurd rfl (h text)
  | _ =>
    simp only [Token.text, List.mem_cons, List.not_mem_nil, or_false, or_self] at hc
    subst hc
    decide

theorem takeWhile_chars (h : Spaced (.word text :: tokens)) :
    (chars (.word text :: tokens)).takeWhile Text.isAlphanumeric = text := by
  have halpha := (h.identifier text List.mem_cons_self).alphanumeric
  have hchars : chars (.word text :: tokens) = text ++ chars tokens := rfl
  rw [hchars, List.takeWhile_append_of_pos halpha]
  cases tokens with
  | nil => simp [chars]
  | cons next tokens =>
    have hnext : ∀ text', next ≠ .word text' := fun text' he =>
      (List.isChain_cons.mp h.apart).1 next rfl text text' ⟨rfl, he⟩
    obtain ⟨c, cs, htext⟩ : ∃ c cs, next.text = c :: cs := by
      cases next with
      | word text' => exact absurd rfl (hnext text')
      | _ => exact ⟨_, _, rfl⟩
    have hc := Token.not_alphanumeric hnext (c := c) (by simp [htext])
    simp [chars, htext, hc]

theorem mem_of_operator {before behind : List Char} (h : Spaced tokens)
    (hchars : chars tokens = before ++ (operatorKeyword ++ behind))
    (hbefore : before = [] ∨ before.getLast? = some ':')
    (hbehind : ∀ c, behind.head? = some c → Text.isIdentChar c = false) :
    .word operatorKeyword ∈ tokens := by
  induction tokens generalizing before with
  | nil => simp [chars, operatorKeyword] at hchars
  | cons token tokens ih =>
    have hcut : token.text ++ chars tokens = before ++ (operatorKeyword ++ behind) := hchars
    by_cases hword : ∃ text, token = .word text
    · obtain ⟨text, rfl⟩ := hword
      have hi := h.identifier text List.mem_cons_self
      have hcolon : text.getLast? ≠ some ':' := fun hlast =>
        absurd (hi.alphanumeric _ (List.mem_of_getLast? hlast)) (by decide)
      obtain hnil | hlast := hbefore
      · -- both are the longest alphanumeric beginning
        have hkeyword := takeWhile_chars h
        have hend : behind.takeWhile Text.isAlphanumeric = [] := by
          cases behind with
          | nil => rfl
          | cons c behind =>
            have hc := hbehind c rfl
            rw [Text.isIdentChar, Bool.or_eq_false_iff] at hc
            rw [List.takeWhile_cons, hc.1]
            rfl
        have hletters : ∀ c ∈ operatorKeyword, Text.isAlphanumeric c = true :=
          List.all_eq_true.mp (by decide)
        rw [hchars, hnil, List.nil_append, List.takeWhile_append_of_pos hletters, hend,
          List.append_nil] at hkeyword
        rw [hkeyword]
        exact List.mem_cons_self
      · obtain ⟨reached, hreached, hchars'⟩ | ⟨reached, htext, -⟩ :=
          List.append_eq_append_iff.mp hcut
        · -- the keyword begins behind the word, and a separator is between them
          refine List.mem_cons_of_mem _ (ih h.tail hchars' (.inr ?_))
          rw [hreached] at hlast
          cases reached with
          | nil => exact absurd (by simpa [Token.text] using hlast) hcolon
          | cons c reached => rwa [List.getLast?_append_of_ne_nil _ (by simp)] at hlast
        · have hmem : ':' ∈ (Token.word text).text :=
            htext ▸ List.mem_append_left _ (List.mem_of_getLast? hlast)
          exact absurd (hi.alphanumeric _ hmem) (by decide)
    · rw [not_exists] at hword
      -- no sign has a letter of the keyword
      obtain ⟨reached, hreached, hchars'⟩ :
          ∃ reached, before = token.text ++ reached ∧
            chars tokens = reached ++ (operatorKeyword ++ behind) := by
        obtain hfront | ⟨reached, htext, hchars'⟩ := List.append_eq_append_iff.mp hcut
        · exact hfront
        · cases reached with
          | nil => exact ⟨[], by simp [htext], hchars'.symm⟩
          | cons c reached =>
            obtain ⟨rfl, -⟩ := List.cons_eq_cons.mp hchars'
            have hmem : 'o' ∈ token.text := htext ▸ List.mem_append_right _ List.mem_cons_self
            exact absurd (Token.not_alphanumeric hword hmem) (by decide)
      refine List.mem_cons_of_mem _ (ih h.tail hchars' ?_)
      rcases reached.eq_nil_or_concat with hnil | ⟨init, last, rfl⟩
      · exact .inl hnil
      · refine .inr (hbefore.elim (fun hnil => ?_) fun hlast => ?_)
        · simp [hnil] at hreached
        · rwa [hreached, List.getLast?_append_of_ne_nil _ (by simp)] at hlast

theorem Spaced.operatorName?_eq (h : Spaced tokens) : operatorName? (chars tokens) = none := by
  refine Option.filter_eq_none_iff.mpr fun ⟨before, behind⟩ hcut haccepted => ?_
  rw [Bool.and_eq_true, Bool.or_eq_true, decide_eq_true_eq, Option.any_eq_true] at haccepted
  obtain ⟨hbefore, c, hc, hident⟩ := haccepted
  have hkeyword : .word operatorKeyword ∈ tokens := by
    refine mem_of_operator h ((cutOperator_eq_some hcut).trans (List.append_assoc _ _ _))
      (hbefore.imp_right fun hs => ?_) fun c' hc' => ?_
    · obtain ⟨path, rfl⟩ := List.isSuffixOf_iff_suffix.mp hs
      simp
    · obtain rfl := Option.some.inj (hc.symm.trans hc')
      simpa using hident
  exact (h.identifier _ hkeyword).ne_operator rfl

theorem Spaced.isBlank_eq (h : Spaced tokens) : ∀ c ∈ chars tokens, Text.isBlank c = false := by
  intro c hc
  obtain ⟨token, ht, hmem⟩ := List.mem_flatMap.mp hc
  cases token with
  | word text => exact Text.isBlank_of_isAlphanumeric ((h.identifier text ht).alphanumeric c hmem)
  | _ =>
    simp only [Token.text, List.mem_cons, List.not_mem_nil, or_false, or_self] at hmem
    subst hmem
    decide

/-- The export name of a type name consists of its parts. -/
theorem Spaced.mangle_write (h : Spaced tokens) (libraryPrefix : String) :
    mangle libraryPrefix (write tokens) =
      libraryPrefix ++ String.ofList (['_'].intercalate (parts tokens)) := by
  rw [mangle, write, String.toList_ofList, Text.dropBlanks_eq_self h.isBlank_eq, mangleChars,
    h.operatorName?_eq]
  exact congrArg (libraryPrefix ++ String.ofList ·) (manglePath_chars h.identifier)

theorem Spaced.mangle_inj (ha : Spaced a) (hb : Spaced b) (libraryPrefix : String) :
    mangle libraryPrefix (write a) = mangle libraryPrefix (write b) ↔ parts a = parts b := by
  rw [ha.mangle_write, hb.mangle_write]
  refine ⟨fun h => ?_, fun h => by rw [h]⟩
  have hchars := String.ofList_injective (String.append_right_inj _ |>.mp h)
  have hsplit := congrArg (List.splitOn '_') hchars
  rwa [List.splitOn_intercalate _ (underscore_not_mem_parts ha.identifier) (parts_ne_nil a),
    List.splitOn_intercalate _ (underscore_not_mem_parts hb.identifier) (parts_ne_nil b)] at hsplit

def Token.sign : Token → Token
  | word _ => word []
  | token => token

theorem Spaced.parts_tail (h : Spaced (.word text :: tokens)) : ∃ ps, parts tokens = [] :: ps := by
  have hnext : ∀ text', tokens.head? ≠ some (.word text') := fun text' he =>
    (List.isChain_cons.mp h.apart).1 _ he text text' ⟨rfl, rfl⟩
  fun_cases parts tokens with
  | case3 text' tokens => exact absurd rfl (hnext text')
  | _ => exact ⟨_, rfl⟩

theorem prependWord_inj {word : List Char} {ps qs : List (List Char)} (hp : ps ≠ [])
    (hq : qs ≠ []) (h : prependWord word ps = prependWord word qs) : ps = qs := by
  obtain ⟨p, ps, rfl⟩ := List.exists_cons_of_ne_nil hp
  obtain ⟨q, qs, rfl⟩ := List.exists_cons_of_ne_nil hq
  simpa [prependWord] using h

/-- Names with the same signs have the same parts only if they have the same identifiers. -/
theorem Spaced.eq_of_signs (ha : Spaced a) (hb : Spaced b)
    (hsigns : a.map Token.sign = b.map Token.sign) (hparts : parts a = parts b) : a = b := by
  induction a generalizing b with
  | nil => exact (List.map_eq_nil_iff.mp hsigns.symm).symm
  | cons token a ih =>
    obtain ⟨token', b, rfl⟩ := List.exists_cons_of_ne_nil (l := b) (by rintro rfl; cases hsigns)
    rw [List.map_cons, List.map_cons, List.cons.injEq] at hsigns
    obtain ⟨hsign, hsigns⟩ := hsigns
    have hrest : parts a = parts b → a = b := ih ha.tail hb.tail hsigns
    have hmarked : ∀ {word : List Char}, [] :: prependWord word (parts a) =
        [] :: prependWord word (parts b) → a = b := fun h =>
      hrest (prependWord_inj (parts_ne_nil a) (parts_ne_nil b) (List.cons_eq_cons.mp h).2)
    cases token <;> cases token' <;> cases hsign
    · next text text' =>
      obtain ⟨ps, hps⟩ := ha.parts_tail
      obtain ⟨qs, hqs⟩ := hb.parts_tail
      rw [parts, parts, hps, hqs, prependWord, prependWord, List.cons.injEq, List.append_nil,
        List.append_nil] at hparts
      obtain ⟨rfl, rfl⟩ := hparts
      rw [hrest (hps.trans hqs.symm)]
    · exact congrArg _ (hrest (List.cons_eq_cons.mp hparts).2)
    · exact congrArg _ (hrest (List.cons_eq_cons.mp hparts).2)
    · exact congrArg _ (hrest (List.cons_eq_cons.mp hparts).2)
    · cases a with
      | nil => rw [List.map_eq_nil_iff.mp hsigns.symm]
      | cons next a =>
        obtain ⟨next', b, rfl⟩ :=
          List.exists_cons_of_ne_nil (l := b) (by rintro rfl; cases hsigns)
        exact congrArg _ (hrest (List.cons_eq_cons.mp hparts).2)
    · exact congrArg _ (hmarked hparts)
    · exact congrArg _ (hmarked hparts)

/-- Has no template arguments, and no part that reads like a marker. -/
structure IsPlain (tokens : List Token) : Prop where
  no_arguments : .opening ∉ tokens
  no_pointer : .word ['p', 't', 'r'] ∉ tokens
  no_reference : .word ['r', 'e', 'f'] ∉ tokens

instance (tokens : List Token) : Decidable (IsPlain tokens) :=
  decidable_of_iff (.opening ∉ tokens ∧ .word ['p', 't', 'r'] ∉ tokens ∧
    .word ['r', 'e', 'f'] ∉ tokens) ⟨fun h => ⟨h.1, h.2.1, h.2.2⟩, fun h => ⟨h.1, h.2, h.3⟩⟩

/-- The tokens that a part of an export name behind the first one stands for. -/
def readPart (part : List Char) : List Token :=
  if part = ['p', 't', 'r'] then [.pointer]
  else if part = ['r', 'e', 'f'] then [.reference]
  else [.separator, .word part]

def readParts : List (List Char) → List Token
  | [] => []
  | part :: ps => .word part :: ps.flatMap readPart

theorem parts_readPart (ps : List (List Char)) : parts (ps.flatMap readPart) = [] :: ps := by
  induction ps with
  | nil => rfl
  | cons part ps ih =>
    rw [List.flatMap_cons, readPart]
    split
    · next h => rw [List.singleton_append, parts, ih, prependWord, List.append_nil, h]
    · split
      · next h => rw [List.singleton_append, parts, ih, prependWord, List.append_nil, h]
      · rw [List.cons_append, List.singleton_append, parts, parts, ih, prependWord,
          List.append_nil]
        all_goals nofun

theorem parts_readParts (part : List Char) (ps : List (List Char)) :
    parts (readParts (part :: ps)) = part :: ps := by
  rw [readParts, parts, parts_readPart, prependWord, List.append_nil]

theorem readParts_append {ps : List (List Char)} (h : ps ≠ []) (qs : List (List Char)) :
    readParts (ps ++ qs) = readParts ps ++ qs.flatMap readPart := by
  obtain ⟨p, ps, rfl⟩ := List.exists_cons_of_ne_nil h
  simp [readParts]

theorem IsPlain.of_subset (h : IsPlain b) (hs : a ⊆ b) : IsPlain a :=
  ⟨fun hm => h.no_arguments (hs hm), fun hm => h.no_pointer (hs hm),
    fun hm => h.no_reference (hs hm)⟩

theorem exists_readPart_of_markers
    (h : ∀ token ∈ tokens, token = .pointer ∨ token = .reference) :
    ∃ words : List (List Char), tokens = words.flatMap readPart := by
  induction tokens with
  | nil => exact ⟨[], rfl⟩
  | cons token tokens ih =>
    obtain ⟨htoken, htokens⟩ := List.forall_mem_cons.mp h
    obtain ⟨words, rfl⟩ := ih htokens
    obtain rfl | rfl := htoken
    · exact ⟨['p', 't', 'r'] :: words, rfl⟩
    · exact ⟨['r', 'e', 'f'] :: words, rfl⟩

/-- Every plain name is read from its parts; one part of a path is a single identifier. -/
theorem Written.exists_parts {form : Form} (h : Written form tokens) (hform : form ≠ .arguments)
    (hplain : IsPlain tokens) :
    ∃ part ps, tokens = readParts (part :: ps) ∧ (form = .part → ps = []) := by
  induction h with
  | name => exact ⟨_, [], rfl, fun _ => rfl⟩
  | template => exact absurd (List.mem_cons_of_mem _ List.mem_cons_self) hplain.no_arguments
  | single _ ih =>
    obtain ⟨part, ps, htokens, -⟩ := ih nofun hplain
    exact ⟨part, ps, htokens, nofun⟩
  | member _ _ outer last =>
    obtain ⟨part, ps, rfl, -⟩ := outer nofun (hplain.of_subset (List.subset_append_left _ _))
    obtain ⟨part', ps', rfl, hone⟩ := last nofun (hplain.of_subset
      fun _ hm => List.mem_append_right _ (List.mem_cons_of_mem _ hm))
    obtain rfl := hone rfl
    have hmem : .word part' ∈ readParts (part :: ps) ++ .separator :: readParts [part'] := by
      simp [readParts]
    have hread : readPart part' = [.separator, .word part'] := by
      rw [readPart, if_neg, if_neg]
      · rintro rfl
        exact hplain.no_reference hmem
      · rintro rfl
        exact hplain.no_pointer hmem
    refine ⟨part, ps ++ [part'], ?_, nofun⟩
    rw [← List.cons_append, readParts_append (List.cons_ne_nil _ _), List.flatMap_singleton, hread]
    rfl
  | marked _ isMarker ih =>
    next path markers _ =>
    obtain ⟨part, ps, rfl, -⟩ := ih nofun (hplain.of_subset (List.subset_append_left _ _))
    obtain ⟨words, rfl⟩ := exists_readPart_of_markers isMarker
    refine ⟨part, ps ++ words, ?_, nofun⟩
    rw [← List.cons_append, readParts_append (List.cons_ne_nil _ _)]
  | argument => exact absurd rfl hform
  | further => exact absurd rfl hform

theorem IsTypeName.eq_of_parts (ha : IsTypeName a) (hb : IsTypeName b) (hpa : IsPlain a)
    (hpb : IsPlain b) (h : parts a = parts b) : a = b := by
  obtain ⟨part, ps, rfl, -⟩ := Written.exists_parts ha nofun hpa
  obtain ⟨part', ps', rfl, -⟩ := Written.exists_parts hb nofun hpb
  rw [parts_readParts, parts_readParts] at h
  rw [h]

/-- Two type names are merged exactly when they have the same parts. Names that differ only in their
identifiers are never merged, and neither are plain names. -/
theorem mangle_write_eq_iff (ha : IsTypeName a) (hb : IsTypeName b) (libraryPrefix : String) :
    (mangle libraryPrefix (write a) = mangle libraryPrefix (write b) ↔ parts a = parts b) ∧
      (mangle libraryPrefix (write a) = mangle libraryPrefix (write b) →
        a.map Token.sign = b.map Token.sign ∨ IsPlain a ∧ IsPlain b → a = b) := by
  have hparts := (Written.spaced ha).mangle_inj (Written.spaced hb) libraryPrefix
  refine ⟨hparts, fun h halike => ?_⟩
  obtain hsigns | ⟨hpa, hpb⟩ := halike
  · exact (Written.spaced ha).eq_of_signs (Written.spaced hb) hsigns (hparts.mp h)
  · exact ha.eq_of_parts hb hpa hpb (hparts.mp h)

theorem Written.unmarked (h : Written .path tokens) : Written .type tokens := by
  have htype : Written .type (tokens ++ []) := h.marked nofun
  rwa [List.append_nil] at htype

def vectorOf (markers : List Token) : List Token :=
  [.word "std".toList, .separator, .word "vector".toList, .opening, .word "MStruct".toList] ++
    markers ++ [.closing]

theorem isTypeName_vectorOf {markers : List Token}
    (h : ∀ token ∈ markers, token = .pointer ∨ token = .reference) :
    IsTypeName (vectorOf markers) :=
  Written.unmarked (.member (.single (.name (by decide)))
    (.template (by decide) (.argument (.marked (.single (.name (by decide))) h))))

theorem mangle_vector_marker_ne :
    (IsTypeName (vectorOf [.pointer]) ∧ IsTypeName (vectorOf [.reference])) ∧
      write (vectorOf [.pointer]) = "std::vector<MStruct*>" ∧
      mangle "rbind_" (write (vectorOf [.pointer])) ≠
        mangle "rbind_" (write (vectorOf [.reference])) := by
  have hp : IsTypeName (vectorOf [.pointer]) := isTypeName_vectorOf (by simp)
  have hr : IsTypeName (vectorOf [.reference]) := isTypeName_vectorOf (by simp)
  refine ⟨⟨hp, hr⟩, rfl, fun h => ?_⟩
  exact absurd ((mangle_write_eq_iff hp hr "rbind_").1.mp h) (by decide)

/-- `std::map<A::B,C>` and `std::map<A,B::C>` have the same export name. -/
theorem mangle_maps_agree :
    ¬ ∀ (libraryPrefix : String) (a b : List Token), IsTypeName a → IsTypeName b → a ≠ b →
      mangle libraryPrefix (write a) ≠ mangle libraryPrefix (write b) := by
  intro h
  let map (arguments : List Token) : List Token :=
    [.word "std".toList, .separator, .word "map".toList, .opening] ++ arguments ++ [.closing]
  let a := map [.word ['A'], .separator, .word ['B'], .comma, .word ['C']]
  let b := map [.word ['A'], .comma, .word ['B'], .separator, .word ['C']]
  have hA : Written .path [.word ['A']] := .single (.name (by decide))
  have hB : Written .path [.word ['B']] := .single (.name (by decide))
  have hC : Written .path [.word ['C']] := .single (.name (by decide))
  have ha : IsTypeName a := Written.unmarked (.member (.single (.name (by decide)))
    (.template (by decide) (.further (.argument (.unmarked (.member hA (.name (by decide)))))
      (.unmarked hC))))
  have hb : IsTypeName b := Written.unmarked (.member (.single (.name (by decide)))
    (.template (by decide) (.further (.argument (.unmarked hA))
      (.unmarked (.member hB (.name (by decide)))))))
  refine h "" a b ha hb (by decide) ?_
  exact ((Written.spaced ha).mangle_inj (Written.spaced hb) "").mpr rfl

end TypeName

end ApiModel
