import SourceDeps.Proofs.Stylesheet.Step

namespace SourceDeps.Stylesheet

open SourceDeps.Text

theorem utf8ByteSize_ofList (cs : List Char) :
    (String.ofList cs).utf8ByteSize = byteLength cs := by
  induction cs with
  | nil => rfl
  | cons c cs ih =>
    have hcons : String.ofList (c :: cs) = String.singleton c ++ String.ofList cs := by
      rw [String.singleton_eq_ofList, ← String.ofList_append, List.singleton_append]
    rw [hcons, String.utf8ByteSize_append, String.utf8ByteSize_singleton, ih, byteLength]

/-- A rule stands in a text: the text splits into what is left of the rule, its sign, its name, what
else belongs to it, and what is right of it. The rule takes the bytes from its sign on, its name is
the longest run of name characters, its prelude is the rest of it without white space at the ends,
and its line counts the line breaks to its left. -/
def PlacedRule.StandsIn (r : PlacedRule) (text : String) : Prop :=
  ∃ left name body right : String,
    text = left ++ "@" ++ name ++ body ++ right ∧
    r.start = left.utf8ByteSize ∧ r.stop = (left ++ "@" ++ name ++ body).utf8ByteSize ∧
    name ≠ "" ∧ (∀ c ∈ name.toList, isNameChar c = true) ∧
    (∀ c, (body ++ right).toList.head? = some c → isNameChar c = false) ∧
    r.rule.name = name ∧ r.rule.prelude = trimmed body ∧
    r.rule.line = 1 + left.toList.count '\n'

theorem standsIn_ofList (left right : List Char) (ps : List String) {name body : List Char}
    (hne : name ≠ []) (hname : ∀ c ∈ name, isNameChar c = true)
    (hend : ∀ c, (body ++ right).head? = some c → isNameChar c = false) :
    PlacedRule.StandsIn
      { rule := ⟨String.ofList name, String.ofList (trim body), ps, 1 + lineBreaks left⟩
        start := byteLength left
        stop := byteLength left + byteLength ('@' :: (name ++ body)) }
      (String.ofList (left ++ '@' :: (name ++ (body ++ right)))) := by
  have hsign : "@" = String.ofList ['@'] := rfl
  refine ⟨String.ofList left, String.ofList name, String.ofList body, String.ofList right,
    ?_, ?_, ?_, ?_, ?_, ?_, rfl, ?_, ?_⟩
  · simp only [hsign, ← String.ofList_append, List.append_assoc, List.cons_append,
      List.nil_append]
  · exact (utf8ByteSize_ofList left).symm
  · rw [hsign, ← String.ofList_append, ← String.ofList_append, ← String.ofList_append,
      utf8ByteSize_ofList, ← byteLength_append, List.append_assoc, List.append_assoc]
    rfl
  · intro h
    exact hne (by simpa using congrArg String.toList h)
  · simpa only [String.toList_ofList] using hname
  · simpa only [← String.ofList_append, String.toList_ofList] using hend
  · rw [trimmed, String.toList_ofList]
  · rw [String.toList_ofList, lineBreaks]

variable (surface : Surface)

/-- From a place on where the line and the byte are those that the text before gives, the rules that
are read stand in the whole text, behind that place and in order. -/
theorem rulesFrom_standsIn (left cs : List Char) :
    (∀ r ∈ rulesFrom surface (1 + lineBreaks left) (byteLength left) cs,
      byteLength left ≤ r.start ∧ r.start < r.stop ∧ r.StandsIn (String.ofList (left ++ cs))) ∧
    (rulesFrom surface (1 + lineBreaks left) (byteLength left) cs).Pairwise
      fun a b => a.stop ≤ b.start := by
  induction cs using reading_induction generalizing left with
  | nil =>
    rw [rulesFrom]
    exact ⟨List.forall_mem_nil _, List.Pairwise.nil⟩
  | pass taken rest hpass ih =>
    -- Nothing is read: what is passed over joins the text to the left.
    obtain ⟨hmem, hpairs⟩ := ih (left ++ taken)
    rw [lineBreaks_append, byteLength_append, ← Nat.add_assoc] at hmem hpairs
    rw [hpass]
    refine ⟨fun r hr => ?_, hpairs⟩
    obtain ⟨hstart, hstop, hstands⟩ := hmem r hr
    rw [List.append_assoc] at hstands
    exact ⟨by omega, hstop, hstands⟩
  | rule name last behind hlast hname hend hread ih =>
    -- A rule is read, and all further ones begin where it stops.
    obtain ⟨hmem, hpairs⟩ :=
      ih surface (left ++ '@' :: (name ++ (prelude surface 0 last behind).taken))
    obtain ⟨body, hbody⟩ : ∃ body, prelude surface 0 last behind = body := ⟨_, rfl⟩
    have hall : body.taken ++ body.rest = behind := hbody ▸ all_prelude surface 0 last behind
    have hrule := hread surface
    rw [hbody] at hrule hmem hpairs
    subst hall
    let taken := '@' :: (name ++ body.taken)
    have hcs : left ++ '@' :: (name ++ (body.taken ++ body.rest)) = left ++ taken ++ body.rest := by
      simp only [taken, List.append_assoc, List.cons_append]
    have hne : name ≠ [] := by
      rintro rfl
      cases hlast
    have hpos : 0 < byteLength taken := by
      have hat : '@'.utf8Size = 1 := rfl
      rw [byteLength, hat]
      omega
    rw [lineBreaks_append, byteLength_append, ← Nat.add_assoc, ← hcs] at hmem
    rw [lineBreaks_append, byteLength_append, ← Nat.add_assoc] at hpairs
    rw [hrule]
    refine ⟨fun r hr => ?_, List.pairwise_cons.mpr ⟨fun r hr => (hmem r hr).1, hpairs⟩⟩
    rcases List.mem_cons.mp hr with rfl | hr
    · exact ⟨Nat.le_refl _, Nat.lt_add_of_pos_right hpos,
        standsIn_ofList left body.rest (params (trim body.taken)) hne hname hend⟩
    · obtain ⟨hstart, hstop, hstands⟩ := hmem r hr
      exact ⟨by omega, hstop, hstands⟩

/-- The rules of any text correspond in order to stretches of it that do not overlap, and each is
what stands in its stretch. -/
theorem rules_stand_in_text (text : String) :
    (read surface text).rules = (placedRules surface text).map (·.rule) ∧
    (placedRules surface text).Pairwise (fun a b => a.stop ≤ b.start) ∧
    ∀ r ∈ placedRules surface text, r.start < r.stop ∧ r.StandsIn text := by
  obtain ⟨hmem, hpairs⟩ := rulesFrom_standsIn surface [] text.toList
  refine ⟨rfl, hpairs, fun r hr => ?_⟩
  obtain ⟨-, hlt, hstands⟩ := hmem r hr
  rw [List.nil_append, String.ofList_toList] at hstands
  exact ⟨hlt, hstands⟩

end SourceDeps.Stylesheet
