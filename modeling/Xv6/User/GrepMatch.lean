import Mathlib.Computability.Language

/-!
# The matcher of grep

A string is the list of the bytes behind its pointer. It ends with the first NUL
among them, or with the list.
-/

namespace Xv6.Grep

open scoped Computability

/-! ## The functions -/

/-- `s[i]` -/
def charAt (s : List UInt8) (i : Nat) : UInt8 :=
  s.getD i 0

/-- `'^'` -/
def caret : UInt8 := 94

/-- `'*'` -/
def asterisk : UInt8 := 42

/-- `'$'` -/
def dollar : UInt8 := 36

/-- `'.'` -/
def dot : UInt8 := 46

theorem length_pos_of_charAt {s : List UInt8} (present : charAt s 0 ≠ 0) : 0 < s.length := by
  cases s with
  | nil => exact absurd rfl present
  | cons c s => exact Nat.zero_lt_succ s.length

theorem length_drop_lt {s : List UInt8} {k : Nat} (present : charAt s 0 ≠ 0) :
    (s.drop (k + 1)).length < s.length := by
  have nonempty := length_pos_of_charAt present
  rw [List.length_drop]
  omega

mutual

/-- `matchhere`: search for `re` at the beginning of `text`. -/
def matchhere (re text : List UInt8) : Bool :=
  if _present : charAt re 0 = 0 then true
  else if charAt re 1 = asterisk then matchstar (charAt re 0) (re.drop 2) text
  else if charAt re 0 = dollar ∧ charAt re 1 = 0 then charAt text 0 == 0
  else if charAt text 0 ≠ 0 ∧ (charAt re 0 = dot ∨ charAt re 0 = charAt text 0) then
    matchhere (re.drop 1) (text.drop 1)
  else false
termination_by (re.length, 0, text.length)
decreasing_by all_goals exact Prod.Lex.left _ _ (length_drop_lt _present)

/-- `matchstar`: search for `c*re` at the beginning of `text`. -/
def matchstar (c : UInt8) (re text : List UInt8) : Bool :=
  if matchhere re text then true
  else if _more : charAt text 0 ≠ 0 ∧ (charAt text 0 = c ∨ c = dot) then
    matchstar c re (text.drop 1)
  else false
termination_by (re.length, 1, text.length)
decreasing_by
  · exact Prod.Lex.right _ (Prod.Lex.left _ _ Nat.zero_lt_one)
  · exact Prod.Lex.right _ (Prod.Lex.right _ (length_drop_lt _more.1))

end

/-- The `do` loop of `match` -/
def matchLoop (re text : List UInt8) : Bool :=
  if matchhere re text then true
  else if _more : charAt text 0 ≠ 0 then matchLoop re (text.drop 1)
  else false
termination_by text.length
decreasing_by exact length_drop_lt _more

/-- `match` -/
def matchText (re text : List UInt8) : Bool :=
  if charAt re 0 = caret then matchhere (re.drop 1) text else matchLoop re text

/-! ## The string behind a pointer -/

/-- The bytes before the NUL. -/
def cstring (s : List UInt8) : List UInt8 :=
  s.takeWhile (· ≠ 0)

@[simp]
theorem cstring_nil : cstring [] = [] := rfl

@[simp]
theorem cstring_cons (c : UInt8) (s : List UInt8) :
    cstring (c :: s) = if c = 0 then [] else c :: cstring s := by
  by_cases zero : c = 0 <;> simp [cstring, zero]

theorem cstring_of_notMem {s : List UInt8} (absent : 0 ∉ s) : cstring s = s := by
  induction s with
  | nil => rfl
  | cons c s inductionHypothesis =>
      rw [List.mem_cons, not_or] at absent
      rw [cstring_cons, if_neg (Ne.symm absent.1), inductionHypothesis absent.2]

/-- A pointer at the NUL. -/
theorem cstring_of_charAt {s : List UInt8} (ended : charAt s 0 = 0) : cstring s = [] := by
  cases s with
  | nil => rfl
  | cons c s => rw [cstring_cons, if_pos (show c = 0 from ended)]

/-- A pointer at a character. -/
theorem cstring_of_charAt_ne {s : List UInt8} (present : charAt s 0 ≠ 0) :
    cstring s = charAt s 0 :: cstring (s.drop 1) := by
  cases s with
  | nil => exact absurd rfl present
  | cons c s =>
      rw [cstring_cons, if_neg (show c ≠ 0 from present)]
      rfl

theorem charAt_one (s : List UInt8) : charAt s 1 = charAt (s.drop 1) 0 := by
  cases s <;> rfl

/-! ## The language of a pattern -/

/-- The words of one character that `c` stands for. -/
def charLanguage (c : UInt8) : Language UInt8 :=
  {word | ∃ t, word = [t] ∧ (c = dot ∨ t = c)}

inductive Item where
  /-- `c` -/
  | once (c : UInt8)
  /-- `c*` -/
  | star (c : UInt8)
  deriving DecidableEq, Repr

def Item.language : Item → Language UInt8
  | once c => charLanguage c
  | star c => (charLanguage c)∗

/-- A pattern without its `^`. -/
structure Pattern where
  items : List Item
  /-- It ends with `$`. -/
  final : Bool
  deriving DecidableEq, Repr

namespace Pattern

def cons (item : Item) (pattern : Pattern) : Pattern :=
  ⟨item :: pattern.items, pattern.final⟩

def language (pattern : Pattern) : Language UInt8 :=
  (pattern.items.map Item.language).prod

/-- A word at the start of the text is in the language, and is all of it if the pattern ends
with `$`. -/
def Reads (pattern : Pattern) (text : List UInt8) : Prop :=
  ∃ word rest, text = word ++ rest ∧ word ∈ pattern.language ∧ (pattern.final = true → rest = [])

end Pattern

/-- A `*` belongs to the character before it, from left to right. -/
def readPattern : List UInt8 → Pattern
  | [] => ⟨[], false⟩
  | [c] => if c = dollar then ⟨[], true⟩ else ⟨[.once c], false⟩
  | c :: d :: re =>
      if d = asterisk then (readPattern re).cons (.star c)
      else (readPattern (d :: re)).cons (.once c)

example : readPattern [97, 42, 42, 46, 36] = ⟨[.star 97, .once 42, .once 46], true⟩ := by decide

theorem readPattern_star {c : UInt8} {re : List UInt8} :
    readPattern (c :: asterisk :: re) = (readPattern re).cons (.star c) := by
  rw [readPattern, if_pos rfl]

theorem readPattern_once {c : UInt8} {re : List UInt8}
    (plain : charAt re 0 ≠ asterisk) (inside : ¬(c = dollar ∧ re = [])) :
    readPattern (c :: re) = (readPattern re).cons (.once c) := by
  cases re with
  | nil => exact if_neg fun same => inside ⟨same, rfl⟩
  | cons d re => rw [readPattern, if_neg (show d ≠ asterisk from plain)]

namespace Pattern

variable {pattern : Pattern} {c : UInt8} {text : List UInt8}

theorem reads_nil : (⟨[], false⟩ : Pattern).Reads text :=
  ⟨[], text, rfl, Language.nil_mem_one, nofun⟩

theorem reads_end : (⟨[], true⟩ : Pattern).Reads text ↔ text = [] := by
  constructor
  · rintro ⟨word, rest, rfl, member, ended⟩
    rw [(Language.mem_one word).mp member, ended rfl]
    rfl
  · rintro rfl
    exact ⟨[], [], rfl, Language.nil_mem_one, fun _ => rfl⟩

theorem language_cons {item : Item} :
    (pattern.cons item).language = item.language * pattern.language :=
  List.prod_cons

/-- An item reads a word, and the other items what comes after it. -/
theorem reads_cons {item : Item} :
    (pattern.cons item).Reads text ↔
      ∃ word rest, text = word ++ rest ∧ word ∈ item.language ∧ pattern.Reads rest := by
  constructor
  · rintro ⟨word, rest, rfl, member, ended⟩
    rw [language_cons, Language.mem_mul] at member
    obtain ⟨first, inItem, others, inOthers, rfl⟩ := member
    exact ⟨first, others ++ rest, List.append_assoc .., inItem, others, rest, rfl, inOthers, ended⟩
  · rintro ⟨first, _, rfl, inItem, others, rest, rfl, inOthers, ended⟩
    refine ⟨first ++ others, rest, (List.append_assoc ..).symm, ?_, ended⟩
    rw [language_cons]
    exact Language.append_mem_mul inItem inOthers

theorem reads_once :
    (pattern.cons (.once c)).Reads text ↔
      ∃ t rest, text = t :: rest ∧ (c = dot ∨ t = c) ∧ pattern.Reads rest := by
  rw [reads_cons]
  constructor
  · rintro ⟨_, rest, rfl, ⟨t, rfl, fits⟩, reads⟩
    exact ⟨t, rest, rfl, fits, reads⟩
  · rintro ⟨t, rest, rfl, fits, reads⟩
    exact ⟨[t], rest, rfl, ⟨t, rfl, fits⟩, reads⟩

/-- `c*` reads nothing or one character and then `c*` again. -/
theorem mem_star {word : List UInt8} :
    word ∈ (Item.star c).language ↔
      word = [] ∨ ∃ t others, word = t :: others ∧ (c = dot ∨ t = c) ∧
        others ∈ (Item.star c).language := by
  change word ∈ (charLanguage c)∗ ↔ _
  rw [← Language.one_add_self_mul_kstar_eq_kstar, Language.mem_add, Language.mem_one,
    Language.mem_mul]
  refine or_congr Iff.rfl ⟨?_, ?_⟩
  · rintro ⟨_, ⟨t, rfl, fits⟩, others, inStar, rfl⟩
    exact ⟨t, others, rfl, fits, inStar⟩
  · rintro ⟨t, others, rfl, fits, inStar⟩
    exact ⟨[t], ⟨t, rfl, fits⟩, others, inStar, rfl⟩

theorem reads_star :
    (pattern.cons (.star c)).Reads text ↔
      pattern.Reads text ∨ ∃ t rest, text = t :: rest ∧ (c = dot ∨ t = c) ∧
        (pattern.cons (.star c)).Reads rest := by
  rw [reads_cons]
  constructor
  · rintro ⟨word, rest, rfl, inStar, reads⟩
    obtain rfl | ⟨t, others, rfl, fits, more⟩ := mem_star.mp inStar
    · exact .inl reads
    · exact .inr ⟨t, others ++ rest, rfl, fits, reads_cons.mpr ⟨others, rest, rfl, more, reads⟩⟩
  · rintro (reads | ⟨t, rest, rfl, fits, reads⟩)
    · exact ⟨[], text, rfl, mem_star.mpr (.inl rfl), reads⟩
    · obtain ⟨others, rest, rfl, more, reads⟩ := reads_cons.mp reads
      exact ⟨t :: others, rest, rfl, mem_star.mpr (.inr ⟨t, others, rfl, fits, more⟩), reads⟩

end Pattern

/-! ## The functions decide the language -/

variable {c : UInt8} {re text : List UInt8}

/-- The next character of the text is one that `c` stands for. -/
def Fits (c : UInt8) (text : List UInt8) : Prop :=
  charAt text 0 ≠ 0 ∧ (c = dot ∨ charAt text 0 = c)

theorem fits_iff {P : List UInt8 → Prop} :
    (∃ t rest, cstring text = t :: rest ∧ (c = dot ∨ t = c) ∧ P rest) ↔
      Fits c text ∧ P (cstring (text.drop 1)) := by
  by_cases ended : charAt text 0 = 0
  · rw [cstring_of_charAt ended]
    exact ⟨nofun, fun fits => absurd ended fits.1.1⟩
  · rw [cstring_of_charAt_ne ended]
    constructor
    · rintro ⟨t, rest, equal, fits, holds⟩
      cases equal
      exact ⟨⟨ended, fits⟩, holds⟩
    · rintro ⟨fits, holds⟩
      exact ⟨_, _, rfl, fits.2, holds⟩

theorem cstring_starred (present : charAt re 0 ≠ 0) (starred : charAt re 1 = asterisk) :
    cstring re = charAt re 0 :: asterisk :: cstring (re.drop 2) := by
  rw [charAt_one] at starred
  have second : charAt (re.drop 1) 0 ≠ 0 := by rw [starred]; decide
  rw [cstring_of_charAt_ne present, cstring_of_charAt_ne second, starred, List.drop_drop]

theorem cstring_final (present : charAt re 0 ≠ 0)
    (final : charAt re 0 = dollar ∧ charAt re 1 = 0) : cstring re = [dollar] := by
  rw [cstring_of_charAt_ne present, cstring_of_charAt (charAt_one re ▸ final.2), final.1]

theorem readPattern_plain (present : charAt re 0 ≠ 0) (plain : ¬charAt re 1 = asterisk)
    (inside : ¬(charAt re 0 = dollar ∧ charAt re 1 = 0)) :
    readPattern (cstring re) = (readPattern (cstring (re.drop 1))).cons (.once (charAt re 0)) := by
  rw [charAt_one] at plain inside
  rw [cstring_of_charAt_ne present]
  refine readPattern_once ?_ fun final => inside ⟨final.1, ?_⟩
  · by_cases ended : charAt (re.drop 1) 0 = 0
    · rw [cstring_of_charAt ended]
      decide
    · rw [cstring_of_charAt_ne ended]
      exact plain
  · by_contra more
    rw [cstring_of_charAt_ne more] at final
    exact absurd final.2 nofun

theorem cstring_eq_nil : cstring text = [] ↔ charAt text 0 = 0 := by
  refine ⟨fun empty => ?_, cstring_of_charAt⟩
  by_contra more
  rw [cstring_of_charAt_ne more] at empty
  exact absurd empty nofun

/-- What `matchhere` and `matchstar` find is what the pattern reads. -/
theorem matchhere_matchstar :
    (∀ re text, matchhere re text = true ↔ (readPattern (cstring re)).Reads (cstring text)) ∧
    ∀ c re text, matchstar c re text = true ↔
      ((readPattern (cstring re)).cons (.star c)).Reads (cstring text) := by
  refine matchhere.mutual_induct _ _ ?empty ?starred ?final ?plain ?misses ?here ?again ?stops
  case empty =>
    intro re text ended
    rw [matchhere, dif_pos ended, cstring_of_charAt ended]
    exact iff_of_true rfl Pattern.reads_nil
  case starred =>
    intro re text present starred starHolds
    rw [matchhere, dif_neg present, if_pos starred, starHolds, cstring_starred present starred,
      readPattern_star]
  case final =>
    intro re text present plain final
    rw [matchhere, dif_neg present, if_neg plain, if_pos final, cstring_final present final,
      beq_iff_eq]
    exact cstring_eq_nil.symm.trans Pattern.reads_end.symm
  case plain =>
    intro re text present plain inside fits restHolds
    rw [matchhere, dif_neg present, if_neg plain, if_neg inside, if_pos fits, restHolds,
      readPattern_plain present plain inside, Pattern.reads_once, fits_iff]
    exact (and_iff_right ⟨fits.1, fits.2.imp_right Eq.symm⟩).symm
  case misses =>
    intro re text present plain inside misses
    rw [matchhere, dif_neg present, if_neg plain, if_neg inside, if_neg misses,
      readPattern_plain present plain inside, Pattern.reads_once, fits_iff]
    exact iff_of_false nofun fun fits => misses ⟨fits.1.1, fits.1.2.imp_right Eq.symm⟩
  case here =>
    intro c re text found reads
    rw [matchstar, if_pos found, Pattern.reads_star]
    exact iff_of_true rfl (.inl (reads.mp found))
  case again =>
    intro c re text missed fits reads restHolds
    rw [matchstar, if_neg missed, dif_pos fits, restHolds]
    refine Iff.symm (Pattern.reads_star.trans ?_)
    rw [fits_iff, or_iff_right fun here => missed (reads.mpr here)]
    exact and_iff_right ⟨fits.1, fits.2.symm⟩
  case stops =>
    intro c re text missed misses reads
    rw [matchstar, if_neg missed, dif_neg misses, Pattern.reads_star, fits_iff]
    refine iff_of_false nofun ?_
    rintro (here | ⟨fits, -⟩)
    · exact missed (reads.mpr here)
    · exact misses ⟨fits.1, fits.2.symm⟩

theorem matchhere_iff :
    matchhere re text = true ↔ (readPattern (cstring re)).Reads (cstring text) :=
  matchhere_matchstar.1 re text

theorem matchLoop_iff :
    matchLoop re text = true ↔
      ∃ before later, cstring text = before ++ later ∧
        (readPattern (cstring re)).Reads later := by
  fun_induction matchLoop re text with
  | case1 text found =>
      exact iff_of_true rfl ⟨[], _, rfl, matchhere_iff.mp found⟩
  | case2 text missed more inductionHypothesis =>
      rw [inductionHypothesis, cstring_of_charAt_ne more]
      constructor
      · rintro ⟨before, later, equal, reads⟩
        exact ⟨_ :: before, later, congrArg (_ :: ·) equal, reads⟩
      · rintro ⟨before, later, equal, reads⟩
        cases before with
        | nil =>
            refine absurd (matchhere_iff.mpr ?_) missed
            rw [cstring_of_charAt_ne more, equal]
            exact reads
        | cons t before => exact ⟨before, later, (List.cons.inj equal).2, reads⟩
  | case3 text missed ended =>
      refine iff_of_false nofun ?_
      rintro ⟨before, later, equal, reads⟩
      rw [cstring_of_charAt (not_not.mp ended)] at equal
      obtain ⟨rfl, rfl⟩ := List.append_eq_nil_iff.mp equal.symm
      refine missed (matchhere_iff.mpr ?_)
      rw [cstring_of_charAt (not_not.mp ended)]
      exact reads

/-- The pattern behind a `^`. -/
def body (re : List UInt8) : List UInt8 :=
  if re.head? = some caret then re.drop 1 else re

/-- `match` is 1 if and only if the text has a word in the language of the pattern, at its start
if the pattern starts with `^` and at its end if it ends with `$`. -/
theorem matchText_iff (re text : List UInt8) (terminatedRe : 0 ∉ re) (terminated : 0 ∉ text) :
    matchText re text = true ↔
      ∃ before word after, text = before ++ word ++ after ∧
        word ∈ (readPattern (body re)).language ∧
        (re.head? = some caret → before = []) ∧
        ((readPattern (body re)).final = true → after = []) := by
  by_cases anchored : re.head? = some caret
  · obtain ⟨body', rfl⟩ : ∃ body', re = caret :: body' := List.head?_eq_some_iff.mp anchored
    have terminatedBody : 0 ∉ body' := fun member => terminatedRe (.tail _ member)
    have found : matchText (caret :: body') text = matchhere body' text := if_pos rfl
    have inside : body (caret :: body') = body' := if_pos rfl
    rw [found, inside, matchhere_iff, cstring_of_notMem terminatedBody,
      cstring_of_notMem terminated]
    constructor
    · rintro ⟨word, after, equal, member, ended⟩
      exact ⟨[], word, after, equal, member, fun _ => rfl, ended⟩
    · rintro ⟨before, word, after, equal, member, first, ended⟩
      cases first anchored
      exact ⟨word, after, equal, member, ended⟩
  · have found : matchText re text = matchLoop re text := by
      refine if_neg fun same => anchored ?_
      cases re with
      | nil => exact absurd same (by decide)
      | cons c re => exact congrArg some same
    have inside : body re = re := if_neg anchored
    rw [found, inside, matchLoop_iff, cstring_of_notMem terminatedRe,
      cstring_of_notMem terminated]
    constructor
    · rintro ⟨before, _, equal, word, after, rfl, member, ended⟩
      exact ⟨before, word, after, equal.trans (List.append_assoc ..).symm, member,
        fun first => absurd first anchored, ended⟩
    · rintro ⟨before, word, after, equal, member, -, ended⟩
      exact ⟨before, word ++ after, equal.trans (List.append_assoc ..), word, after, rfl, member,
        ended⟩

/-- `a.$` is found in `bab`. -/
theorem matchText_iff_found :
    0 ∉ [97, 46, 36] ∧ 0 ∉ [98, 97, 98] ∧ matchText [97, 46, 36] [98, 97, 98] = true := by
  refine ⟨by decide, by decide, (matchText_iff _ _ (by decide) (by decide)).mpr ?_⟩
  refine ⟨[98], [97, 98], [], rfl, ?_, nofun, fun _ => rfl⟩
  have read : readPattern (body [97, 46, 36]) = ⟨[.once 97, .once 46], true⟩ := by decide
  have first : [97] ∈ (Item.once 97).language := ⟨97, rfl, .inr rfl⟩
  have second : [98] ∈ (Item.once 46).language := ⟨98, rfl, .inl rfl⟩
  rw [read]
  exact Language.append_mem_mul first (Language.append_mem_mul second Language.nil_mem_one)

end Xv6.Grep
