import Mathlib.Data.Multiset.Filter

/-! Tokens, each for a key and at a stage, and keys that are raised or not: a key
that is raised has one token and no other has any. A token that moves on keeps
this, a key raised with a token of its own keeps it, and one lowered with its
token does. -/

namespace OpcHub.Lib

variable {κ ς : Type*} [DecidableEq κ] [DecidableEq ς] {t : Multiset (κ × ς)} {a b k : κ} {s s' r : ς}

/-- The tokens of a key. -/
def tokens (t : Multiset (κ × ς)) (k : κ) : ℕ := (t.map Prod.fst).count k

omit [DecidableEq ς] in
theorem tokens_cons (t : Multiset (κ × ς)) (a : κ) (s : ς) (k : κ) :
    tokens ((a, s) ::ₘ t) k = tokens t k + if k = a then 1 else 0 := by
  rw [tokens, Multiset.map_cons, Multiset.count_cons]
  rfl

theorem tokens_erase (h : (a, s) ∈ t) (k : κ) :
    tokens (t.erase (a, s)) k + (if k = a then 1 else 0) = tokens t k := by
  rw [← tokens_cons, Multiset.cons_erase h]

omit [DecidableEq ς] in
theorem tokens_pos_iff : 0 < tokens t k ↔ ∃ s, (k, s) ∈ t := by
  rw [tokens, Multiset.count_pos, Multiset.mem_map]
  constructor
  · rintro ⟨⟨_, s⟩, hmem, rfl⟩
    exact ⟨s, hmem⟩
  · rintro ⟨s, hmem⟩
    exact ⟨(k, s), hmem, rfl⟩

/-- The token goes on to another stage. -/
def advance (t : Multiset (κ × ς)) (a : κ) (s s' : ς) : Multiset (κ × ς) := (a, s') ::ₘ t.erase (a, s)

theorem tokens_advance (h : (a, s) ∈ t) (s' : ς) (k : κ) : tokens (advance t a s s') k = tokens t k := by
  rw [advance, tokens_cons, tokens_erase h]

theorem mem_advance (h : (b, r) ∈ advance t a s s') : (b, r) = (a, s') ∨ (b, r) ∈ t.erase (a, s) :=
  Multiset.mem_cons.mp h

/-- One token for each key that is raised, and none for another. -/
structure OnePer (t : Multiset (κ × ς)) (raised : κ → Prop) : Prop where
  one : ∀ {k}, raised k → tokens t k = 1
  none : ∀ {k}, ¬ raised k → tokens t k = 0

variable {raised raised' : κ → Prop}

section

variable (h : OnePer t raised)
include h

omit [DecidableEq ς] in
theorem OnePer.raised_of_mem (hmem : (a, s) ∈ t) : raised a := by
  by_contra hnot
  have := tokens_pos_iff.mpr ⟨s, hmem⟩
  have := h.none hnot
  omega

theorem OnePer.ne_of_mem_erase (hmem : (a, s) ∈ t) (hb : (b, r) ∈ t.erase (a, s)) : b ≠ a := by
  rintro rfl
  have hone := h.one (h.raised_of_mem hmem)
  have herase := tokens_erase hmem b
  have := tokens_pos_iff.mpr ⟨r, hb⟩
  simp only [if_true] at herase
  omega

theorem OnePer.advance (hmem : (a, s) ∈ t) (s' : ς) : OnePer (advance t a s s') raised where
  one hk := by rw [tokens_advance hmem, h.one hk]
  none hk := by rw [tokens_advance hmem, h.none hk]

omit [DecidableEq ς] in
theorem OnePer.congr (hraised : ∀ k, raised' k ↔ raised k) : OnePer t raised' where
  one hk := h.one ((hraised _).mp hk)
  none hk := h.none fun hr => hk ((hraised _).mpr hr)

omit [DecidableEq ς] in
theorem OnePer.raise (ha : ¬ raised a) (s : ς) (hraised : ∀ k, raised' k ↔ raised k ∨ k = a) :
    OnePer ((a, s) ::ₘ t) raised' where
  one {k} hk := by
    rw [tokens_cons]
    obtain hk | rfl := (hraised k).mp hk
    · have hne : k ≠ a := fun heq => ha (heq ▸ hk)
      rw [h.one hk, if_neg hne]
    · rw [h.none ha, if_pos rfl]
  none {k} hk := by
    obtain ⟨hnot, hne⟩ := not_or.mp (mt (hraised k).mpr hk)
    rw [tokens_cons, h.none hnot, if_neg hne]

theorem OnePer.lower (hmem : (a, s) ∈ t) (hraised : ∀ k, raised' k ↔ raised k ∧ k ≠ a) :
    OnePer (t.erase (a, s)) raised' where
  one {k} hk := by
    obtain ⟨hk, hne⟩ := (hraised k).mp hk
    have herase := tokens_erase hmem k
    rwa [if_neg hne, h.one hk] at herase
  none {k} hk := by
    have herase := tokens_erase hmem k
    by_cases hne : k = a
    · rw [if_pos hne, h.one (hne ▸ h.raised_of_mem hmem)] at herase
      omega
    · rwa [if_neg hne, h.none fun hr => hk ((hraised k).mpr ⟨hr, hne⟩)] at herase

end

end OpcHub.Lib
