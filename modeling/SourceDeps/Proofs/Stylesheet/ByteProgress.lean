import Mathlib.Tactic.SplitIfs
import SourceDeps.Proofs.Stylesheet.ByteReader

namespace SourceDeps.Stylesheet.ByteReader

/-- Each step that gives no result moves on to a later byte. -/
def Advances {σ α : Type} (index : σ → Nat) (step : σ → Run (σ ⊕ α)) : Prop :=
  ∀ s s', step s = pure (.inl s') → index s < index s'

/-- Where a step of a scan leads: on to a later byte, from one that is there, or to the end of the
scan, which is not before the byte where the step begins, and not behind the last. -/
def IsAhead {σ : Type} (index : σ → Nat) (b : List UInt8) (s : σ) : σ ⊕ Nat → Prop
  | .inl s' => index s < index s' ∧ index s < b.length
  | .inr stop => min (index s) b.length ≤ stop ∧ stop ≤ b.length

/-- No step of a scan is a fault, and each leads ahead. -/
def Scans {σ : Type} (index : σ → Nat) (b : List UInt8) (step : σ → Run (σ ⊕ Nat)) : Prop :=
  ∀ s, ∃ next, step s = pure next ∧ IsAhead index b s next

namespace Scans

variable {σ : Type} {index : σ → Nat} {b : List UInt8} {step : σ → Run (σ ⊕ Nat)}

theorem advances (h : Scans index b step) : Advances index step := by
  intro s s' hs
  obtain ⟨next, hnext, hahead⟩ := h s
  obtain rfl : next = .inl s' := pure_inj.mp (hnext.symm.trans hs)
  exact hahead.1

theorem loop_within (h : Scans index b step) (s : σ) (hs : index s ≤ b.length) :
    ∃ stop, loop step s = pure stop ∧ index s ≤ stop ∧ stop ≤ b.length := by
  refine loop_ends index b.length (fun next => index s ≤ index next) ?_ s (Nat.le_refl _)
  intro next hnext
  rcases h next with ⟨next' | stop, hstep, hahead⟩
  · exact .inl ⟨next', hstep, Nat.le_trans hnext (Nat.le_of_lt hahead.1), hahead⟩
  · exact .inr ⟨stop, hstep, Nat.le_trans (Nat.le_min.mpr ⟨hnext, hs⟩) hahead.1, hahead.2⟩

end Scans

variable (surface : Surface) (b : List UInt8)

theorem commentStep_scans : Scans id b (commentStep b) := by
  intro k
  by_cases hk : k + 1 < b.length
  · have hlt : k < b.length := Nat.lt_of_succ_lt hk
    rw [commentStep, if_pos hk, byteAt_eq (List.getElem?_eq_getElem hlt), pure_bind]
    by_cases hstar : b[k] = '*'.toUInt8
    · rw [if_pos hstar, byteAt_eq (List.getElem?_eq_getElem hk), pure_bind]
      by_cases hslash : b[k + 1] = '/'.toUInt8
      · rw [if_pos hslash]
        exact ⟨.inr (k + 2), rfl, Nat.le_trans (Nat.min_le_left _ _) (Nat.le_add_right k 2), hk⟩
      · rw [if_neg hslash]
        exact ⟨.inl (k + 1), rfl, Nat.lt_succ_self k, hlt⟩
    · rw [if_neg hstar]
      exact ⟨.inl (k + 1), rfl, Nat.lt_succ_self k, hlt⟩
  · exact ⟨.inr b.length, if_neg hk, Nat.min_le_right _ _, Nat.le_refl _⟩

theorem commentEnd_within {start : Nat} (h : start + 2 ≤ b.length) :
    ∃ stop, commentEnd b start = pure stop ∧ start + 2 ≤ stop ∧ stop ≤ b.length :=
  (commentStep_scans b).loop_within (start + 2) h

theorem stringStep_scans (quote : UInt8) : Scans id b (stringStep b quote) := by
  intro k
  by_cases hk : k < b.length
  · rw [stringStep, if_pos hk, byteAt_eq (List.getElem?_eq_getElem hk), pure_bind]
    refine ⟨_, rfl, ?_⟩
    split_ifs
    · exact ⟨Nat.lt_add_of_pos_right (by decide), hk⟩
    · exact ⟨Nat.le_succ_of_le (Nat.min_le_left _ _), hk⟩
    · exact ⟨Nat.min_le_left _ _, Nat.le_of_lt hk⟩
    · exact ⟨Nat.lt_succ_self k, hk⟩
  · exact ⟨.inr b.length, if_neg hk, Nat.min_le_right _ _, Nat.le_refl _⟩

theorem stringEnd_within (quote : UInt8) {start : Nat} (h : start + 1 ≤ b.length) :
    ∃ stop, stringEnd b quote start = pure stop ∧ start + 1 ≤ stop ∧ stop ≤ b.length :=
  (stringStep_scans b quote).loop_within (start + 1) h

theorem lt_of_getElem?_eq_some {k : Nat} {y : UInt8} (h : b[k]? = some y) : k < b.length :=
  (List.getElem?_eq_some_iff.mp h).1

theorem exists_followsColon {slash : Nat} (h : slash < b.length) :
    ∃ address, followsColon b slash = pure address := by
  by_cases hpos : 0 < slash
  · have hlt : slash - 1 < b.length := Nat.lt_of_le_of_lt (Nat.sub_le slash 1) h
    rw [followsColon, if_pos hpos, byteAt_eq (List.getElem?_eq_getElem hlt), pure_bind]
    exact ⟨_, rfl⟩
  · exact ⟨false, if_neg hpos⟩

theorem preludeStep_scans : Scans Prod.snd b (preludeStep surface b) := by
  rintro ⟨depth, k⟩
  by_cases hk : k < b.length
  · rw [preludeStep, if_pos hk, byteAt_eq (List.getElem?_eq_getElem hk), pure_bind]
    by_cases hquote : b[k] = '\x22'.toUInt8 ∨ b[k] = '\x27'.toUInt8
    · obtain ⟨stop, hstop, hlt, -⟩ := stringEnd_within b b[k] hk
      rw [if_pos hquote, hstop, pure_bind]
      exact ⟨.inl (depth, stop), rfl, hlt, hk⟩
    rw [if_neg hquote]
    by_cases hcomment : b[k] = '/'.toUInt8 ∧ b[k + 1]? = some '*'.toUInt8
    · obtain ⟨stop, hstop, hlt, -⟩ := commentEnd_within b (lt_of_getElem?_eq_some b hcomment.2)
      rw [if_pos hcomment, hstop, pure_bind]
      exact ⟨.inl (depth, stop), rfl, Nat.lt_of_succ_lt hlt, hk⟩
    rw [if_neg hcomment]
    have hnext (depth' : Nat) : IsAhead Prod.snd b (depth, k) (.inl (depth', k + 1)) :=
      ⟨Nat.lt_succ_self k, hk⟩
    have hhere : IsAhead Prod.snd b (depth, k) (.inr k) := ⟨Nat.min_le_left _ _, Nat.le_of_lt hk⟩
    by_cases hline : b[k] = '/'.toUInt8 ∧ b[k + 1]? = some '/'.toUInt8 ∧ depth = 0
    · obtain ⟨address, haddress⟩ := exists_followsColon b hk
      rw [if_pos hline, haddress, pure_bind]
      refine ⟨_, rfl, ?_⟩
      cases address
      · exact hhere
      · exact hnext depth
    rw [if_neg hline]
    refine ⟨_, rfl, ?_⟩
    split_ifs
    · exact hnext (depth + 1)
    · exact hnext (depth - 1)
    · exact ⟨Nat.le_succ_of_le (Nat.min_le_left _ _), hk⟩
    · exact hhere
    · exact hhere
    · exact hnext depth
  · exact ⟨.inr b.length, if_neg hk, Nat.min_le_right _ _, Nat.le_refl _⟩

theorem preludeEnd_within {start : Nat} (h : start ≤ b.length) :
    ∃ stop, preludeEnd surface b start = pure stop ∧ start ≤ stop ∧ stop ≤ b.length :=
  (preludeStep_scans surface b).loop_within (0, start) h

theorem nameStep_cases (k : Nat) :
    (k < b.length ∧ nameStep b k = pure (.inl (k + 1))) ∨ nameStep b k = pure (.inr k) := by
  by_cases hk : k < b.length
  · rw [nameStep, if_pos hk, byteAt_eq (List.getElem?_eq_getElem hk), pure_bind]
    split_ifs
    · exact .inl ⟨hk, rfl⟩
    · exact .inr rfl
  · exact .inr (if_neg hk)

theorem nameStep_advances : Advances id (nameStep b) := by
  intro k k' h
  rcases nameStep_cases b k with ⟨-, hstep⟩ | hstep
  · rw [hstep] at h
    exact Sum.inl.inj (pure_inj.mp h) ▸ Nat.lt_succ_self k
  · rw [hstep] at h
    cases pure_inj.mp h

theorem nameEnd_within {start : Nat} (h : start ≤ b.length) :
    ∃ stop, nameEnd b start = pure stop ∧ start ≤ stop ∧ stop ≤ b.length := by
  refine loop_ends id b.length (fun k => start ≤ k ∧ k ≤ b.length) ?_ start ⟨Nat.le_refl _, h⟩
  rintro k ⟨hle, hbound⟩
  rcases nameStep_cases b k with ⟨hk, hstep⟩ | hstep
  · exact .inl ⟨k + 1, hstep, ⟨Nat.le_succ_of_le hle, hk⟩, Nat.lt_succ_self k, hk⟩
  · exact .inr ⟨k, hstep, hle, hbound⟩

variable {surface b} {cs : List Char}

/-- Where a slash is, the line ends further on. -/
theorem lineEnd_advances {start stop : Nat} (hstart : b[start]? = some '/'.toUInt8)
    (h : lineEnd b start = pure stop) : start < stop := by
  obtain ⟨hlt, hslash⟩ := List.getElem?_eq_some_iff.mp hstart
  have hcut : cutBytes b start b.length = pure ('/'.toUInt8 :: b.drop (start + 1)) := by
    rw [cutBytes, if_pos ⟨Nat.le_of_lt hlt, Nat.le_refl _⟩, List.take_length,
      List.drop_eq_getElem_cons hlt, hslash]
  rw [lineEnd, hcut, pure_bind, List.findIdx?_cons, if_neg (by decide)] at h
  obtain rfl := pure_inj.mp h
  cases (b.drop (start + 1)).findIdx? (· = '\n'.toUInt8) with
  | none => exact hlt
  | some p => exact Nat.lt_add_of_pos_right (Nat.succ_pos p)

theorem ruleStep_advances {s s' : State} (hs : s.index < b.length)
    (h : ruleStep surface b cs s = pure s') : s.index < s'.index := by
  obtain ⟨nameStop, hname, hlt, hnameStop⟩ := nameEnd_within b hs
  rw [ruleStep, hname, pure_bind] at h
  split_ifs at h
  · exact pure_inj.mp h ▸ Nat.lt_succ_self s.index
  · obtain ⟨name, -, h⟩ := exists_of_bind_eq_pure h
    obtain ⟨stop, hstop, hle, -⟩ := preludeEnd_within surface b hnameStop
    rw [hstop, pure_bind] at h
    obtain ⟨body, -, h⟩ := exists_of_bind_eq_pure h
    obtain ⟨ps, -, h⟩ := exists_of_bind_eq_pure h
    obtain ⟨taken, -, h⟩ := exists_of_bind_eq_pure h
    exact pure_inj.mp h ▸ Nat.lt_of_lt_of_le hlt hle

theorem skipTo_index {s s' : State} {stop : Nat} (h : skipTo b s stop = pure s') :
    s'.index = stop := by
  obtain ⟨taken, -, h⟩ := exists_of_bind_eq_pure h
  exact pure_inj.mp h ▸ rfl

theorem readStep_advances : Advances State.index (readStep surface b cs) := by
  intro s s' h
  by_cases hs : s.index < b.length
  · rw [readStep, if_pos hs, byteAt_eq (List.getElem?_eq_getElem hs), pure_bind] at h
    split_ifs at h with hnewline hcomment hline hquote hat
    · exact Sum.inl.inj (pure_inj.mp h) ▸ Nat.lt_succ_self s.index
    · obtain ⟨stop, hstop, hle, -⟩ := commentEnd_within b (lt_of_getElem?_eq_some b hcomment.2)
      rw [hstop, pure_bind] at h
      rw [skipTo_index (exists_of_map_inl h)]
      exact Nat.lt_of_succ_lt hle
    · obtain ⟨stop, hstop, h⟩ := exists_of_bind_eq_pure h
      have hstart : b[s.index]? = some '/'.toUInt8 := hline.1 ▸ List.getElem?_eq_getElem hs
      exact Sum.inl.inj (pure_inj.mp h) ▸ lineEnd_advances hstart hstop
    · obtain ⟨stop, hstop, hle, -⟩ := stringEnd_within b b[s.index] hs
      rw [hstop, pure_bind] at h
      rw [skipTo_index (exists_of_map_inl h)]
      exact hle
    · exact ruleStep_advances hs (exists_of_map_inl h)
    · exact Sum.inl.inj (pure_inj.mp h) ▸ Nat.lt_succ_self s.index
  · rw [readStep, if_neg hs] at h
    cases pure_inj.mp h

end SourceDeps.Stylesheet.ByteReader
