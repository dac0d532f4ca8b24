import Mathlib.Data.List.Basic

/-! Glob patterns. The matcher walks text and pattern together and goes back to the last star
only; what a pattern means is said of the whole text. An earlier star never has to take more:
what stands between two stars matches text of one length wherever it does. -/

namespace OpcHub.Ql

open List

def star : UInt8 := 42

def question : UInt8 := 63

def openBracket : UInt8 := 91

def closeBracket : UInt8 := 93

def dash : UInt8 := 45

/-- `GlobClass`; the pattern after its bracket stands for where that is. -/
structure GlobClass where
  negate : Bool
  body : List UInt8
  rest : List UInt8

/-- `ParseGlobClass`, of what follows an opening bracket. A closing one first in the body is a member. -/
def parseGlobClass (after : List UInt8) : Option GlobClass :=
  let negate := after.head? == some 94 || after.head? == some 33
  let body := if negate then after.tail else after
  match body.tail.dropWhile (· ≠ closeBracket) with
  | [] => none
  | _ :: rest => some ⟨negate, body.take 1 ++ body.tail.takeWhile (· ≠ closeBracket), rest⟩

section Match

variable (le : UInt8 → UInt8 → Bool)

/-- The class's members one after the other; a dash that spans to nothing is one. -/
def matchBody (c : UInt8) (matched : Bool) : List UInt8 → Bool
  | x :: d :: y :: rest =>
    if d = dash then matchBody c (matched || (le x c && le c y)) rest else matchBody c (matched || c = x) (d :: y :: rest)
  | x :: rest => matchBody c (matched || c = x) rest
  | [] => matched

def matchClass (after : List UInt8) (c : UInt8) : Option (Bool × List UInt8) :=
  (parseGlobClass after).map fun parsed => (matchBody le c false parsed.body != parsed.negate, parsed.rest)

/-- Whether the pattern's first item, no star, takes the character, and what follows the item. -/
def matchItem : List UInt8 → UInt8 → Bool × List UInt8
  | [], _ => (false, [])
  | x :: after, c =>
    if x = openBracket then (matchClass le after c).getD (c = openBracket, after) else (x = question || x = c, after)

theorem length_rest_lt {after : List UInt8} {parsed : GlobClass} (h : parseGlobClass after = some parsed) :
    parsed.rest.length < after.length := by
  simp only [parseGlobClass] at h
  split at h
  · cases h
  · rename_i x rest hrest
    cases h
    have hdrop := congrArg List.length hrest ▸ (dropWhile_suffix _).length_le
    split_ifs at hdrop <;>
    · simp only [length_cons, length_tail] at hdrop ⊢
      omega

theorem length_matchItem_lt {p : List UInt8} {c : UInt8} (h : (matchItem le p c).1 = true) :
    (matchItem le p c).2.length < p.length := by
  cases p with
  | nil => cases h
  | cons x after =>
    rw [matchItem]
    split_ifs with hx
    · cases hclass : parseGlobClass after with
      | none => simp [matchClass, hclass]
      | some parsed =>
        have hrest := length_rest_lt hclass
        simp only [matchClass, hclass, Option.map_some, Option.getD_some, length_cons]
        omega
    · simp

/-- The loop of `globMatch` at the rest of the text and of the pattern. After a star it keeps the pattern
behind it and the text it went over since. -/
def globLoop : List UInt8 → List UInt8 → Option (List UInt8 × List UInt8) → Bool
  | [], p, _ => p.dropWhile (· = star) = []
  | c :: t, p, last =>
    if p.head? = some star then globLoop (c :: t) p.tail (some (p.tail, []))
    else if _h : (matchItem le p c).1 then
      globLoop t (matchItem le p c).2 (last.map fun (after, seen) => (after, seen ++ [c]))
    else
      match last with
      | some (after, seen) => globLoop (seen ++ c :: t).tail after (some (after, []))
      | none => false
termination_by t p last => (match last with | some (_, seen) => seen.length + t.length | none => t.length + 1, p.length)
decreasing_by
  · have hp : p.tail.length < p.length := by
      cases p with
      | nil => contradiction
      | cons => simp
    cases last <;> simp_wf <;> grind
  · have hlen := length_matchItem_lt le _h
    cases last <;> simp_wf <;> grind
  · simp_wf
    grind

def globMatch (text pattern : List UInt8) : Bool := globLoop le text pattern none

end Match

/-- One member of a class: a character, or all from one to another. -/
inductive Member
  | char (x : UInt8)
  | range (x y : UInt8)

def members : List UInt8 → List Member
  | x :: d :: y :: rest => if d = dash then .range x y :: members rest else .char x :: members (d :: y :: rest)
  | x :: rest => .char x :: members rest
  | [] => []

section Meaning

variable (le : UInt8 → UInt8 → Bool)

def Member.Holds (c : UInt8) : Member → Prop
  | .char x => c = x
  | .range x y => le x c = true ∧ le c y = true

/-- The pattern starts with an item for one character that `c` is, and `q` follows it. -/
inductive Item : List UInt8 → UInt8 → List UInt8 → Prop
  | any (c : UInt8) (q : List UInt8) : Item (question :: q) c q
  | inside {after : List UInt8} {parsed : GlobClass} {c : UInt8} (h : parseGlobClass after = some parsed)
      (hc : (∃ m ∈ members parsed.body, m.Holds le c) ↔ parsed.negate = false) : Item (openBracket :: after) c parsed.rest
  | bracket {after : List UInt8} (h : parseGlobClass after = none) : Item (openBracket :: after) openBracket after
  | char {c : UInt8} (q : List UInt8) (hstar : c ≠ star) (hopen : c ≠ openBracket) : Item (c :: q) c q

/-- What it is for a text to match: a star is any run, every other item one character. -/
inductive Matches : List UInt8 → List UInt8 → Prop
  | nil : Matches [] []
  | star (s : List UInt8) {p t : List UInt8} (h : Matches p t) : Matches (star :: p) (s ++ t)
  | item {p q t : List UInt8} {c : UInt8} (hitem : Item le p c q) (h : Matches q t) : Matches p (c :: t)

variable {le} {p q q' t : List UInt8} {c c' : UInt8}

theorem matchBody_iff (c : UInt8) (matched : Bool) (body : List UInt8) :
    matchBody le c matched body = true ↔ matched = true ∨ ∃ m ∈ members body, m.Holds le c := by
  fun_induction matchBody le c matched body with
  | case1 matched x y rest ih => simp [ih, members, Member.Holds, or_assoc]
  | case2 matched x d y rest hd ih => simp [ih, members, hd, Member.Holds, or_assoc]
  | case3 matched x rest hrest ih =>
    rw [ih, members.eq_2 x rest hrest]
    simp [Member.Holds, or_assoc]
  | case4 matched => simp [members]

/-- An item ends at one place, whatever character it stands for. -/
theorem matchItem_snd (c c' : UInt8) : (matchItem le p c).2 = (matchItem le p c').2 := by
  cases p with
  | nil => rfl
  | cons x after =>
    rw [matchItem, matchItem]
    split_ifs
    · cases hclass : parseGlobClass after <;> simp [matchClass, hclass]
    · rfl

theorem item_of_matchItem (hp : p.head? ≠ some star) (h : (matchItem le p c).1 = true) :
    Item le p c (matchItem le p c).2 := by
  cases p with
  | nil => cases h
  | cons x after =>
    rw [matchItem] at h ⊢
    split_ifs at h ⊢ with hx
    · subst hx
      cases hclass : parseGlobClass after with
      | none =>
        obtain rfl : c = openBracket := by simpa [matchClass, hclass] using h
        simpa [matchClass, hclass] using Item.bracket hclass
      | some parsed =>
        simp only [matchClass, hclass, Option.map_some, Option.getD_some, bne_iff_ne] at h ⊢
        refine .inside hclass ?_
        rw [← false_or (∃ m ∈ members parsed.body, m.Holds le c), ← Bool.false_eq_true, ← matchBody_iff]
        cases hn : parsed.negate <;> simpa [hn] using h
    · obtain rfl | rfl : x = question ∨ x = c := by simpa using h
      · exact .any c after
      · exact .char after (fun hstar => hp (by rw [hstar]; rfl)) hx

theorem matchItem_of_item (h : Item le p c q) : p.head? ≠ some star ∧ matchItem le p c = (true, q) := by
  cases h with
  | any => exact ⟨by simp [question, star], by simp [matchItem, question, openBracket]⟩
  | @inside after parsed _ hclass hc =>
    refine ⟨by simp [openBracket, star], ?_⟩
    have hbody := @matchBody_iff le c false parsed.body
    rw [hc] at hbody
    simp only [matchItem, matchClass, hclass, Option.map_some, if_true, Option.getD_some, Prod.mk.injEq, and_true]
    cases hn : parsed.negate <;> simpa [hn] using hbody
  | bracket hclass => exact ⟨by simp [openBracket, star], by simp [matchItem, matchClass, hclass]⟩
  | char _ hstar hopen => exact ⟨by simpa using hstar, by simp [matchItem, hopen]⟩

/-- One item takes the character exactly if the text after it matches what follows the item. -/
theorem matches_cons_iff (hp : p.head? ≠ some star) :
    Matches le p (c :: t) ↔ (matchItem le p c).1 = true ∧ Matches le (matchItem le p c).2 t := by
  constructor
  · intro h
    generalize htext : c :: t = text at h
    cases h with
    | nil => cases htext
    | star => exact absurd rfl hp
    | item hitem h =>
      cases htext
      rw [(matchItem_of_item hitem).2]
      exact ⟨rfl, h⟩
  · exact fun ⟨hitem, h⟩ => .item (item_of_matchItem hp hitem) h

theorem matches_star_iff : Matches le (star :: p) t ↔ ∃ k, Matches le p (t.drop k) := by
  constructor
  · intro h
    generalize hpattern : star :: p = pattern at h
    cases h with
    | nil => cases hpattern
    | star s h =>
      cases hpattern
      exact ⟨s.length, by rwa [drop_left]⟩
    | item hitem =>
      subst hpattern
      exact absurd rfl (matchItem_of_item hitem).1
  · rintro ⟨k, h⟩
    rw [← take_append_drop k t]
    exact .star _ h

theorem matches_nil_iff : Matches le p [] ↔ p.dropWhile (· = star) = [] := by
  induction p with
  | nil => exact ⟨fun _ => rfl, fun _ => .nil⟩
  | cons x p ih =>
    by_cases hx : x = star
    · subst hx
      simp [matches_star_iff, ih]
    · refine ⟨fun h => ?_, fun h => by simp [hx] at h⟩
      generalize htext : [] = text at h
      cases h with
      | star => exact absurd rfl hx
      | item => cases htext

/-- Where the loop stands. With no star behind it the rest of the text has to match the rest of the pattern.
Behind a star some tail of the text from it on has to match, each that does leaves a tail from here on that
matches the rest of the pattern, and if all of the rest does, so does the text from the star. -/
def Stands (le : UInt8 → UInt8 → Bool) (whole : Prop) (t p : List UInt8) : Option (List UInt8 × List UInt8) → Prop
  | none => whole ↔ Matches le p t
  | some (after, seen) => (whole ↔ ∃ k, Matches le after ((seen ++ t).drop k)) ∧
      (∀ k, Matches le after ((seen ++ t).drop k) → Matches le p (t.drop k)) ∧
      (Matches le p t → Matches le after (seen ++ t))

variable {whole : Prop} {last : Option (List UInt8 × List UInt8)}

/-- A new star is as good as the one before it. -/
theorem Stands.star (h : Stands le whole t (star :: p) last) : Stands le whole t p (some (p, [])) := by
  refine ⟨?_, fun _ => id, id⟩
  cases last with
  | none => exact h.trans matches_star_iff
  | some x =>
    obtain ⟨hwhole, hdown, hup⟩ := h
    refine hwhole.trans ⟨?_, fun hk => ⟨0, hup (matches_star_iff.mpr hk)⟩⟩
    rintro ⟨k, hk⟩
    obtain ⟨j, hj⟩ := matches_star_iff.mp (hdown k hk)
    exact ⟨k + j, by rwa [drop_drop] at hj⟩

theorem Stands.item (hp : p.head? ≠ some Ql.star) (hitem : (matchItem le p c).1 = true) (h : Stands le whole (c :: t) p last) :
    Stands le whole t (matchItem le p c).2 (last.map fun (after, seen) => (after, seen ++ [c])) := by
  have hstep : Matches le p (c :: t) ↔ Matches le (matchItem le p c).2 t := by simp [matches_cons_iff hp, hitem]
  cases last with
  | none => exact h.trans hstep
  | some x =>
    simp only [Option.map_some, Stands, append_assoc, singleton_append]
    refine ⟨h.1, fun k hk => ?_, fun hq => h.2.2 (hstep.mpr hq)⟩
    have hdown := h.2.1 k hk
    cases hdrop : (c :: t).drop k with
    | nil =>
      rw [hdrop, matches_nil_iff] at hdown
      cases p with
      | nil => cases hitem
      | cons x p => simp_all
    | cons c' rest =>
      have hrest : t.drop k = rest := by simpa using congrArg List.tail hdrop
      rw [hdrop, matches_cons_iff hp, matchItem_snd c' c] at hdown
      exact hrest ▸ hdown.2

/-- The last star takes one character more. -/
theorem Stands.back {after seen : List UInt8} (hp : p.head? ≠ some Ql.star) (hitem : ¬ (matchItem le p c).1 = true)
    (h : Stands le whole (c :: t) p (some (after, seen))) : Stands le whole (seen ++ c :: t).tail after (some (after, [])) := by
  refine ⟨h.1.trans ⟨?_, ?_⟩, fun _ => id, id⟩
  · rintro ⟨k, hk⟩
    cases k with
    | zero => exact absurd ((matches_cons_iff hp).mp (h.2.1 0 hk)).1 hitem
    | succ k => exact ⟨k, by simpa using hk⟩
  · rintro ⟨k, hk⟩
    exact ⟨k + 1, by simpa using hk⟩

theorem globLoop_iff (h : Stands le whole t p last) : globLoop le t p last = true ↔ whole := by
  fun_induction globLoop le t p last with
  | case1 p last =>
    rw [decide_eq_true_iff, ← matches_nil_iff]
    cases last with
    | none => exact h.symm
    | some x => exact h.1.trans ⟨fun ⟨k, hk⟩ => by simpa using h.2.1 k hk, fun hp => ⟨0, h.2.2 hp⟩⟩ |>.symm
  | case2 c t p last hp ih =>
    obtain ⟨p, rfl⟩ := head?_eq_some_iff.mp hp
    exact ih h.star
  | case3 c t p last hp hitem ih => exact ih (h.item hp hitem)
  | case4 c t p hp hitem after seen ih => exact ih (h.back hp hitem)
  | case5 c t p hp hitem => simpa [matches_cons_iff hp, hitem] using h.symm

/-- The matcher says yes exactly to the texts that match the pattern, whatever order characters have. -/
theorem globMatch_iff (le : UInt8 → UInt8 → Bool) (text pattern : List UInt8) :
    globMatch le text pattern = true ↔ Matches le pattern text :=
  globLoop_iff .rfl

end Meaning

end OpcHub.Ql
