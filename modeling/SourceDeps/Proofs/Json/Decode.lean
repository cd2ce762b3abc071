import SourceDeps.Proofs.Json.Text

namespace SourceDeps.Json

variable {cs rest more text : List Char} {c bracket : Char} {d : Draft} {fuel : Nat}
  {first : Bool} {t : Tail}

namespace Draft

theorem word_eq_some {d' : Draft} {ws : List Char} (h : word d ws cs = (d', some rest)) :
    d' = d ∧ cs = ws ++ rest := by
  induction ws generalizing cs with
  | nil =>
    rw [word] at h
    cases h
    exact ⟨rfl, rfl⟩
  | cons w ws ih =>
    cases cs with
    | nil => cases h
    | cons c cs =>
      rw [word] at h
      split at h
      · next hc =>
        obtain ⟨hd, hcs⟩ := ih h
        exact ⟨hd, by rw [hc, hcs, List.cons_append]⟩
      · cases h

theorem passed_eq_some {x : Except Stop (List Char)} (h : (passed x).2 = some rest) :
    x = .ok rest := by
  cases x <;> cases h
  rfl

theorem exists_number (h : ofNumber cs = (d, some rest)) :
    ∃ w : Number.Written, cs = w.chars ++ rest ∧ d = w.draft := by
  have hskip : Number.skip cs = .ok rest :=
    passed_eq_some (congrArg Prod.snd h)
  obtain ⟨w, rfl, hends⟩ := Number.exists_written hskip
  rw [ofNumber_append w hends] at h
  exact ⟨w, rfl, (congrArg Prod.fst h).symm⟩

theorem exists_quoted (h : ofQuoted cs = (d, some rest)) :
    ∃ b : Quoted.Body, cs = b.chars ++ '\x22' :: rest ∧ d = b.draft := by
  have hskip : Quoted.skip cs = .ok rest :=
    passed_eq_some (congrArg Prod.snd h)
  obtain ⟨body, hbody, rfl⟩ := Quoted.exists_body hskip
  rw [ofQuoted_append ⟨body, hbody⟩] at h
  exact ⟨⟨body, hbody⟩, rfl, (congrArg Prod.fst h).symm⟩

theorem next_eq_tail (h : next bracket first cs = .tail t (some rest)) :
    t = .closed ∧ ∃ sp : Spacing, cs = sp.chars ++ bracket :: rest := by
  obtain ⟨sp, hcs⟩ := exists_spacing cs
  unfold next at h
  split at h
  · cases h
  · next c cs' heq =>
    split at h
    · next hc =>
      cases h
      exact ⟨rfl, sp, by rw [hcs, heq, hc]⟩
    · split at h
      · cases h
      · split at h
        · split at h
          · cases h
          · split at h <;> cases h
        · cases h

/-- What the next step leads to, up to the rest of the list, is an element with white space in
front. -/
theorem next_eq_more (h : next bracket first cs = .more more) :
    ∃ sp before : Spacing, ∀ front texts rest, more = front ++ (continued bracket texts ++ rest) →
      cs = remaining bracket first sp ((before.chars ++ front) :: texts) ++ rest := by
  obtain ⟨sp, hcs⟩ := exists_spacing cs
  unfold next at h
  split at h
  · cases h
  · next c cs' heq =>
    obtain ⟨before, hcs'⟩ := exists_spacing cs'
    split at h
    · cases h
    · split at h
      · next hfirst =>
        cases h
        refine ⟨sp, sp, fun front texts rest hmore => ?_⟩
        rw [hcs, heq, hmore, hfirst, remaining, listed]
        simp only [List.append_assoc]
      · next hfirst =>
        split at h
        · next hcomma =>
          split at h
          · cases h
          · next heq' =>
            split at h
            · cases h
            · cases h
              refine ⟨sp, before, fun front texts rest hmore => ?_⟩
              rw [hcs, heq, hcomma, hcs', heq', hmore, Bool.eq_false_iff.mpr hfirst, remaining,
                continued]
              simp only [List.append_assoc, List.cons_append]
        · cases h

theorem afterColon_eq_ok (h : afterColon cs = .ok rest) :
    ∃ sp : Spacing, cs = sp.chars ++ ':' :: rest := by
  obtain ⟨sp, hcs⟩ := exists_spacing cs
  unfold afterColon at h
  split at h
  · cases h
  · next heq =>
    cases h
    exact ⟨sp, by rw [hcs, heq]⟩
  · cases h

theorem items_cases {ds : List Draft} (h : items (fuel + 1) first cs = (ds, t, some rest)) :
    (ds = [] ∧ next ']' first cs = .tail t (some rest)) ∨
      ∃ more d after ds', next ']' first cs = .more more ∧ value fuel more = (d, some after) ∧
        items fuel false after = (ds', t, some rest) ∧ ds = d :: ds' := by
  rw [items] at h
  split at h
  · next hnext =>
    cases h
    exact .inl ⟨rfl, hnext⟩
  · next more hnext =>
    split at h
    · cases h
    · next d after hvalue =>
      rcases hitems : items fuel false after with ⟨ds', t', rest'⟩
      rw [hitems] at h
      cases h
      exact .inr ⟨more, d, after, ds', hnext, hvalue, hitems, rfl⟩

theorem members_cases {ds : List (Draft × Draft)}
    (h : members (fuel + 1) first cs = (ds, t, some rest)) :
    (ds = [] ∧ next '\x7d' first cs = .tail t (some rest)) ∨
      ∃ more name skip colon begin d after ds', next '\x7d' first cs = .more more ∧
        value fuel more = (.string name skip, some colon) ∧ afterColon colon = .ok begin ∧
        value fuel begin = (d, some after) ∧ members fuel false after = (ds', t, some rest) ∧
        ds = (.string name skip, d) :: ds' := by
  rw [members] at h
  split at h
  · next hnext =>
    cases h
    exact .inl ⟨rfl, hnext⟩
  · next more hnext =>
    split at h
    · next name skip colon hname =>
      split at h
      · cases h
      · next begin hcolon =>
        split at h
        · cases h
        · next d after hvalue =>
          rcases hmembers : members fuel false after with ⟨ds', t', rest'⟩
          rw [hmembers] at h
          cases h
          exact .inr ⟨more, name, skip, colon, begin, d, after, ds', hnext, hname, hcolon, hvalue,
            hmembers, rfl⟩
    · cases h
    · cases h

/-- What is read as a value with some fuel is the text of one. -/
def TakesTexts (fuel : Nat) : Prop :=
  ∀ cs rest d, value fuel cs = (d, some rest) →
    ∃ (sp : Spacing) (text : List Char), cs = sp.chars ++ (text ++ rest) ∧ IsText text d

theorem items_takes (hvalue : ∀ n < fuel, TakesTexts n) {ds : List Draft}
    (h : items fuel first cs = (ds, t, some rest)) :
    t = .closed ∧ ∃ (sp : Spacing) (its : List Item),
      cs = remaining ']' first sp (its.map (·.chars)) ++ rest ∧ ds = its.map (·.draft) ∧
        ∀ i ∈ its, IsText i.text i.draft := by
  induction fuel generalizing first cs ds with
  | zero => cases h
  | succ fuel ih =>
    obtain ⟨rfl, hnext⟩ | ⟨more, d, after, ds', hnext, hd, hitems, rfl⟩ := items_cases h
    · obtain ⟨rfl, sp, rfl⟩ := next_eq_tail hnext
      exact ⟨rfl, sp, [], (remaining_nil _ _ _ _).symm, rfl, List.forall_mem_nil _⟩
    · obtain ⟨sp, before, hcs⟩ := next_eq_more hnext
      obtain ⟨lead, text, rfl, htext⟩ := hvalue fuel (Nat.lt_succ_self fuel) _ _ _ hd
      obtain ⟨rfl, gap, its, rfl, rfl, htail⟩ :=
        ih (fun n hn => hvalue n (Nat.lt_succ_of_lt hn)) hitems
      let i : Item := ⟨before.append lead, text, d, gap⟩
      have hchars : i.chars = before.chars ++ (lead.chars ++ (text ++ gap.chars)) := by
        simp only [i, Item.chars, Spacing.append, List.append_assoc]
      refine ⟨rfl, sp, i :: its, ?_, rfl, List.forall_mem_cons.mpr ⟨htext, htail⟩⟩
      rw [List.map_cons, hchars]
      exact hcs _ _ _ (by simp only [remaining, List.append_assoc])

theorem members_takes (hvalue : ∀ n < fuel, TakesTexts n) {ds : List (Draft × Draft)}
    (h : members fuel first cs = (ds, t, some rest)) :
    t = .closed ∧ ∃ (sp : Spacing) (ms : List Member),
      cs = remaining '\x7d' first sp (ms.map (·.chars)) ++ rest ∧ ds = ms.map (·.draft) ∧
        ∀ m ∈ ms, IsText m.value.text m.value.draft := by
  induction fuel generalizing first cs ds with
  | zero => cases h
  | succ fuel ih =>
    have hprev := hvalue fuel (Nat.lt_succ_self fuel)
    obtain ⟨rfl, hnext⟩ | ⟨more, name, skip, colon, begin, d, after, ds', hnext, hname, hcolon, hd,
      hmembers, rfl⟩ := members_cases h
    · obtain ⟨rfl, sp, rfl⟩ := next_eq_tail hnext
      exact ⟨rfl, sp, [], (remaining_nil _ _ _ _).symm, rfl, List.forall_mem_nil _⟩
    · obtain ⟨sp, before, hcs⟩ := next_eq_more hnext
      obtain ⟨lead, named, rfl, hnamed⟩ := hprev _ _ _ hname
      obtain ⟨between, rfl⟩ := afterColon_eq_ok hcolon
      obtain ⟨lead', text, rfl, htext⟩ := hprev _ _ _ hd
      obtain ⟨rfl, gap, ms, rfl, rfl, htail⟩ :=
        ih (fun n hn => hvalue n (Nat.lt_succ_of_lt hn)) hmembers
      -- The name was read as a string, so it is the text of one.
      cases hnamed with
      | string b =>
        let m : Member := ⟨before.append lead, b, between, ⟨lead', text, d, gap⟩⟩
        have hchars : m.chars = before.chars ++ (lead.chars ++ (b.quoted ++
            (between.chars ++ ':' :: (lead'.chars ++ (text ++ gap.chars))))) := by
          simp only [m, Member.chars, Item.chars, Spacing.append, List.append_assoc]
        refine ⟨rfl, sp, m :: ms, ?_, rfl, List.forall_mem_cons.mpr ⟨htext, htail⟩⟩
        rw [List.map_cons, hchars]
        exact hcs _ _ _ (by simp only [remaining, List.append_assoc, List.cons_append])

theorem takesTexts (fuel : Nat) : TakesTexts fuel := by
  -- What stands in a list is read with less fuel, but not always with just one unit less.
  induction fuel using Nat.strongRecOn with
  | ind fuel ih =>
    intro cs rest d h
    cases fuel with
    | zero => cases h
    | succ fuel =>
      have hprev : ∀ n < fuel, TakesTexts n := fun n hn => ih n (Nat.lt_succ_of_lt hn)
      obtain ⟨sp, hcs⟩ := exists_spacing cs
      -- It is enough to find the text behind the white space.
      suffices hfound : ∃ text, skipSpace cs = text ++ rest ∧ IsText text d by
        obtain ⟨text, heq, htext⟩ := hfound
        exact ⟨sp, text, by rw [← heq, ← hcs], htext⟩
      rw [value] at h
      split at h
      · cases h
      · next heq =>
        obtain ⟨rfl, rfl⟩ := word_eq_some h
        exact ⟨_, heq, .null⟩
      · next heq =>
        obtain ⟨rfl, rfl⟩ := word_eq_some h
        exact ⟨_, heq, .boolean true⟩
      · next heq =>
        obtain ⟨rfl, rfl⟩ := word_eq_some h
        exact ⟨_, heq, .boolean false⟩
      · next heq =>
        obtain ⟨b, rfl, rfl⟩ := exists_quoted h
        refine ⟨b.quoted, ?_, .string b⟩
        rw [heq, Quoted.Body.quoted]
        simp only [List.cons_append, List.append_assoc, List.nil_append]
      · next cs' heq =>
        rcases hitems : items fuel true cs' with ⟨ds, t, rest'⟩
        rw [hitems] at h
        cases h
        obtain ⟨rfl, gap, its, rfl, rfl, htexts⟩ := items_takes hprev hitems
        exact ⟨arrayChars gap its, heq, .array gap its htexts⟩
      · next cs' heq =>
        rcases hmembers : members fuel true cs' with ⟨ds, t, rest'⟩
        rw [hmembers] at h
        cases h
        obtain ⟨rfl, gap, ms, rfl, rfl, htexts⟩ := members_takes hprev hmembers
        exact ⟨objectChars gap ms, heq, .object gap ms htexts⟩
      · next heq =>
        split at h
        · obtain ⟨w, hw, rfl⟩ := exists_number h
          exact ⟨w.chars, by rw [heq, hw], .number w⟩
        · cases h

end Draft

variable {α : Type} {read : Draft → Except Fault α}

/-- A text of a value, with white space around it, is decoded as its draft is read. -/
theorem decode_text (h : IsText text d) (before after : Spacing) :
    decode read (String.ofList (before.chars ++ (text ++ after.chars))) = read d := by
  have hends : Number.StartsWithNone Number.goesOn after.chars := by
    have hnil := Draft.startsWithNone_spacing after Number.StartsWithNone.nil
    rwa [List.append_nil] at hnil
  have hvalue : Draft.ofChars (before.chars ++ (text ++ after.chars)) = (d, some after.chars) := by
    rw [Draft.ofChars, Draft.value_space]
    refine Draft.readsAs h _ _ ?_ hends
    simp only [List.length_append]
    omega
  rw [decode, String.toList_ofList, hvalue]
  dsimp only
  cases read d with
  | error why => rfl
  | ok a => exact if_pos (List.all_eq_true.mpr after.blank)

/-- What is decoded is the text of a value, with white space around it. -/
theorem exists_text {s : String} {a : α} (h : decode read s = .ok a) :
    ∃ (before after : Spacing) (text : List Char) (d : Draft),
      s = String.ofList (before.chars ++ (text ++ after.chars)) ∧ IsText text d ∧
        read d = .ok a := by
  unfold decode at h
  rcases hvalue : Draft.ofChars s.toList with ⟨d, rest⟩
  rw [hvalue] at h
  obtain ⟨a', hread, h⟩ := bind_eq_ok.mp h
  cases rest with
  | none => cases h
  | some rest =>
    dsimp only at h
    split at h
    · next hblank =>
      cases h
      obtain ⟨sp, text, hs, htext⟩ := Draft.takesTexts _ _ _ _ hvalue
      refine ⟨sp, ⟨rest, List.all_eq_true.mp hblank⟩, text, d, ?_, htext, hread⟩
      rw [← hs, String.ofList_toList]
    · cases h

end SourceDeps.Json
