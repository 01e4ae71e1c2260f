import Foskv.Generic.Majority
import Mathlib.Data.List.Infix

/-! Logs written by the leaders of numbered terms. `L t` is the log of the leader of term `t`;
a log is anchored when each of its prefixes is a prefix of the log of the leader that wrote its
last entry. -/
namespace Foskv.Generic

variable {α : Type*} (term : α → ℕ) (L : ℕ → List α)

def Anchored (l : List α) : Prop := ∀ p e, p ++ [e] <+: l → p ++ [e] <+: L (term e)

/-- The term of the last entry, 0 for an empty log. -/
def lastTerm (l : List α) : ℕ := (l.getLast?.map term).getD 0

variable {term L}

theorem lastTerm_append_singleton (p : List α) (e : α) : lastTerm term (p ++ [e]) = term e := by
  simp [lastTerm]

theorem getElem?_of_isPrefix {l l' : List α} (h : l <+: l') {i : ℕ} {e : α}
    (he : l[i]? = some e) : l'[i]? = some e := by
  obtain ⟨hi,rfl⟩ := List.getElem?_eq_some_iff.mp he
  exact List.prefix_iff_getElem?.mp h i hi

theorem getElem?_of_take_eq {l l' : List α} {k : ℕ} (h : l'.take k = l.take k) {i : ℕ}
    (hi : i < k) : l'[i]? = l[i]? := by
  have hget := congrArg (fun es : List α => es[i]?) h
  simpa only [List.getElem?_take, if_pos hi] using hget

theorem take_of_isPrefix {l l' : List α} (h : l <+: l') {k : ℕ} (hk : k ≤ l.length) :
    l'.take k = l.take k := by
  obtain ⟨more,rfl⟩ := h
  exact List.take_append_of_le_length hk

theorem lastTerm_take {l : List α} {i : ℕ} {e : α} (h : l[i]? = some e) :
    lastTerm term (l.take (i + 1)) = term e := by
  obtain ⟨hi,rfl⟩ := List.getElem?_eq_some_iff.mp h
  rw [List.take_succ_eq_append_getElem hi, lastTerm_append_singleton]

theorem lastTerm_le {l : List α} {t : ℕ} (h : ∀ e ∈ l, term e ≤ t) : lastTerm term l ≤ t := by
  obtain rfl | ⟨p,e,rfl⟩ := List.eq_nil_or_concat l
  · exact Nat.zero_le t
  · rw [List.concat_eq_append] at *
    rw [lastTerm_append_singleton]
    exact h e (by simp)

namespace Anchored

theorem nil : Anchored term L [] := by
  intro p e h
  simp at h

theorem of_isPrefix {l l' : List α} (h : Anchored term L l) (hp : l' <+: l) :
    Anchored term L l' :=
  fun p e hpe => h p e (hpe.trans hp)

theorem mono {L' : ℕ → List α} {l : List α} (h : Anchored term L l) (hL : ∀ t, L t <+: L' t) :
    Anchored term L' l :=
  fun p e hpe => (h p e hpe).trans (hL _)

theorem append_singleton {l : List α} {e : α} (h : Anchored term L l)
    (he : l ++ [e] <+: L (term e)) : Anchored term L (l ++ [e]) := by
  intro p e' hp
  obtain heq | hp := List.prefix_concat_iff.mp hp
  · obtain ⟨rfl,h'⟩ := List.append_inj' heq rfl
    obtain rfl : e' = e := by simpa using h'
    exact he
  · exact h p e' hp

/-- A log up to some entry is where the leader of this entry's term put it. -/
theorem take_isPrefix {l : List α} (h : Anchored term L l) {i : ℕ} (hi : i < l.length) :
    l.take (i + 1) <+: L (term l[i]) := by
  rw [List.take_succ_eq_append_getElem hi]
  refine h _ _ ?_
  rw [← List.take_succ_eq_append_getElem hi]
  exact List.take_prefix _ _

/-- A nonempty log is a prefix of the log of the leader of its last term. -/
theorem prefix_lastTerm {l : List α} (h : Anchored term L l) (hl : l ≠ []) :
    l <+: L (lastTerm term l) := by
  obtain ⟨p,e,rfl⟩ := (List.eq_nil_or_concat l).resolve_left hl
  rw [List.concat_eq_append, lastTerm_append_singleton] at *
  exact h p e (List.prefix_refl _)

/-- Two logs whose entries at one position have the same term agree up to there. -/
theorem matching {l l' : List α} (h : Anchored term L l) (h' : Anchored term L l') {i : ℕ}
    (hi : i < l.length) (hi' : i < l'.length) (ht : term l[i] = term l'[i]) :
    l.take (i + 1) = l'.take (i + 1) := by
  have hp := h.take_isPrefix hi
  have hp' := h'.take_isPrefix hi'
  rw [← ht] at hp'
  have hlen : (l.take (i + 1)).length = (l'.take (i + 1)).length := by
    rw [List.length_take, List.length_take]
    omega
  exact (List.prefix_of_prefix_length_le hp hp' hlen.le).eq_of_length hlen

/-- Two anchored logs of one length with the same last term are equal. -/
theorem eq_of_lastTerm {l l' : List α} (h : Anchored term L l) (h' : Anchored term L l')
    (hlen : l.length = l'.length) (ht : lastTerm term l = lastTerm term l') : l = l' := by
  obtain rfl | hl := eq_or_ne l []
  · exact (List.length_eq_zero_iff.mp hlen.symm).symm
  · have hl' : l' ≠ [] := by
      rintro rfl
      exact hl (List.length_eq_zero_iff.mp hlen)
    have hp := h.prefix_lastTerm hl
    have hp' := h'.prefix_lastTerm hl'
    rw [ht] at hp
    exact (List.prefix_of_prefix_length_le hp hp' hlen.le).eq_of_length hlen

/-- Below an entry of term `t` no entry has a larger term, if leaders write no larger terms. -/
theorem term_le_lastTerm {l p : List α} (h : Anchored term L l)
    (hb : ∀ t, ∀ e ∈ L t, term e ≤ t) (hp : p <+: l) : lastTerm term p ≤ lastTerm term l := by
  obtain rfl | hne := eq_or_ne p []
  · exact Nat.zero_le _
  · have hl : l ≠ [] := by
      rintro rfl
      exact hne (List.prefix_nil.mp hp)
    exact lastTerm_le fun e he => hb _ e ((hp.trans (h.prefix_lastTerm hl)).subset he)

end Anchored

/-- The vote rule: the second log is as long as the first, and its last term as large. -/
def UpToDate (term : α → ℕ) (own candidate : List α) : Prop :=
  own.length ≤ candidate.length ∧ lastTerm term own ≤ lastTerm term candidate

/-- What elections by majorities of `U` guarantee about the logs of the leaders. -/
structure Elections {ι : Type*} [DecidableEq ι] (term : α → ℕ) (L : ℕ → List α) (U : Finset ι)
    (elected : ℕ → List α → Prop) (voted : ι → ℕ → List α → Prop) : Prop where
  anchored : ∀ t, Anchored term L (L t)
  bounded : ∀ t, ∀ e ∈ L t, term e ≤ t
  started : ∀ t, L t ≠ [] → ∃ l, elected t l
  grows : ∀ {t l}, elected t l → l <+: L t
  older : ∀ {t l}, elected t l → ∀ e ∈ l, term e < t
  backed : ∀ {t l}, elected t l → ∃ Q, Majority U Q ∧
    ∀ m ∈ Q, ∃ own bid, voted m t own ∧ UpToDate term own bid ∧ bid <+: l
  votes : ∀ {m t l}, voted m t l → Anchored term L l

/-- A log whose last entry is of term `t`, written by the leader of `t`, and held by a majority
before any of its members voted in a later term. -/
structure Chosen {ι : Type*} (term : α → ℕ) (L : ℕ → List α) (U : Finset ι)
    (voted : ι → ℕ → List α → Prop) (P : List α) (t : ℕ) : Prop where
  nonempty : P ≠ []
  last : lastTerm term P = t
  written : P <+: L t
  held : ∃ Q, Majority U Q ∧ ∀ m ∈ Q, ∀ {t' l}, voted m t' l → t < t' → P <+: l

section Completeness
variable {ι : Type*} [DecidableEq ι] {U : Finset ι} {elected : ℕ → List α → Prop}
  {voted : ι → ℕ → List α → Prop}

/-- A chosen log is a prefix of the log every later leader starts from. -/
theorem Elections.complete (E : Elections term L U elected voted) {P : List α} {t : ℕ}
    (hP : Chosen term L U voted P t) : ∀ t' l, t < t' → elected t' l → P <+: l := by
  intro t'
  induction t' using Nat.strong_induction_on with
  | _ t' ih =>
    intro l ht hl
    obtain ⟨Q,hQ,hheld⟩ := hP.held
    obtain ⟨Q',hQ',hvotes⟩ := E.backed hl
    obtain ⟨m,hm,hm'⟩ := hQ.inter hQ'
    obtain ⟨own,bid,hown,⟨hlen,hlast⟩,hbid⟩ := hvotes m hm'
    -- The shared voter held `P` when it voted, so the bid is at least as long and as recent.
    have hPown : P <+: own := hheld m hm hown ht
    have hbidne : bid ≠ [] := by
      rintro rfl
      have := hPown.length_le
      exact hP.nonempty (List.length_eq_zero_iff.mp (by simp at hlen; simp_all))
    have hlower : t ≤ lastTerm term bid := by
      have := (E.votes hown).term_le_lastTerm E.bounded hPown
      rw [hP.last] at this
      omega
    have hanch : Anchored term L bid := (E.anchored t').of_isPrefix (hbid.trans (E.grows hl))
    have hupper : lastTerm term bid < t' := by
      obtain ⟨p,e,rfl⟩ := (List.eq_nil_or_concat bid).resolve_left hbidne
      rw [List.concat_eq_append] at *
      rw [lastTerm_append_singleton]
      exact E.older hl e (hbid.subset (by simp))
    have hbidL := hanch.prefix_lastTerm hbidne
    have hPL : P <+: L (lastTerm term bid) := by
      obtain heq | hlt := hlower.eq_or_lt
      · rw [← heq]
        exact hP.written
      · obtain ⟨l',hl'⟩ := E.started (lastTerm term bid) (by
          intro hnil
          rw [hnil] at hbidL
          exact hbidne (List.prefix_nil.mp hbidL))
        exact (ih _ hupper l' hlt hl').trans (E.grows hl')
    have hle : P.length ≤ bid.length := hPown.length_le.trans hlen
    exact (List.prefix_of_prefix_length_le hPL hbidL hle).trans hbid

/-- Of two chosen logs one continues the other. -/
theorem Elections.chosen_comparable (E : Elections term L U elected voted) {P P' : List α}
    {t t' : ℕ} (hP : Chosen term L U voted P t) (hP' : Chosen term L U voted P' t') :
    P <+: P' ∨ P' <+: P := by
  have key : ∀ {P P' : List α} {t t' : ℕ}, Chosen term L U voted P t →
      Chosen term L U voted P' t' → t ≤ t' → P <+: P' ∨ P' <+: P := by
    intro P P' t t' hP hP' hle
    refine List.prefix_or_prefix_of_prefix ?_ hP'.written
    obtain rfl | hlt := hle.eq_or_lt
    · exact hP.written
    · obtain ⟨l,hl⟩ := E.started t' (by
        intro hnil
        have hw := hP'.written
        rw [hnil] at hw
        exact hP'.nonempty (List.prefix_nil.mp hw))
      exact (E.complete hP t' l hlt hl).trans (E.grows hl)
  obtain h | h := le_total t t'
  · exact key hP hP' h
  · exact (key hP' hP h).symm

end Completeness
end Foskv.Generic
