import SourceDeps.Json.Record
import SourceDeps.Proofs.Except

namespace SourceDeps.Json

variable {α β σ : Type} {read : Reading α} {origin : Origin} {tail : Tail} {d : Draft} {a : α}
  {s s' : σ} {r : Record σ} {f : Field σ} {seen : List String} {name : String}
  {skip : Option Stop} {ms : List (Draft × Draft)}

/-- What is read off a text is read as well from a value that was kept. -/
def Keeps (read : Reading α) : Prop := ∀ d a, read .text d = .ok a → read .kept d = .ok a

theorem keeps_of_eq (h : ∀ d, read .text d = read .kept d) : Keeps read :=
  fun d _ ha => (h d).symm.trans ha

theorem Keeps.map (h : Keeps read) (g : α → β) : Keeps fun origin d => (read origin d).map g := by
  intro d b hb
  obtain ⟨a, ha, rfl⟩ := map_eq_ok.mp hb
  exact map_eq_ok.mpr ⟨a, h d a ha, rfl⟩

theorem readBoolean_keeps : Keeps readBoolean := keeps_of_eq fun d => by cases d <;> rfl

theorem readString_keeps : Keeps readString := by
  refine keeps_of_eq fun d => ?_
  unfold readString
  split <;> rfl

theorem readOptional_keeps (h : Keeps read) : Keeps (readOptional read) := by
  intro d b hb
  cases d with
  | null => exact hb
  | _ => exact h.map some _ b hb

/-- A name in a text is a string, or the only member of an object with null. -/
theorem readNamed_text_eq_ok {names : List (String × α)} (h : readNamed names .text d = .ok a) :
    ∃ s skip, named names s = .ok a ∧
      (d = .string (.ok s) skip ∨ d = .object [(.string (.ok s) skip, .null)] .closed) := by
  unfold readNamed at h
  split at h
  · exact ⟨_, _, h, .inl rfl⟩
  · cases h
  · cases h
  · split at h
    · obtain ⟨a', hname, h⟩ := bind_eq_ok.mp h
      split at h
      · cases h
        exact ⟨_, _, hname, .inr rfl⟩
      · cases h
      · cases h
      · cases h
    · cases h
  · cases h
  · cases h
  · next heq => cases heq
  · cases h
  · cases h

theorem readNamed_keeps (names : List (String × α)) : Keeps (readNamed names) := by
  intro d a h
  obtain ⟨s, skip, hname, rfl | rfl⟩ := readNamed_text_eq_ok h
  · exact hname
  · exact bind_eq_ok.mpr ⟨a, hname, rfl⟩

/-- What a field takes off a text it takes as well from a value that was kept. -/
def Field.Keeps (f : Field σ) : Prop :=
  ∀ s d s', f.put .text s d = .ok s' → f.put .kept s d = .ok s'

theorem Field.of_keeps (h : Json.Keeps read) (name : String) (put : σ → α → σ) :
    (Field.of name read put).Keeps :=
  fun s => h.map (put s)

/-- The field keeps up a property of the record, if it gets a value with some property. -/
def Field.Preserves (f : Field σ) (P : σ → Prop) (Q : Draft → Prop) : Prop :=
  ∀ origin s d s', P s → Q d → f.put origin s d = .ok s' → P s'

theorem Field.of_preserves {P : σ → Prop} {Q : Draft → Prop} {put : σ → α → σ}
    (h : ∀ origin s d a, P s → Q d → read origin d = .ok a → P (put s a)) (name : String) :
    (Field.of name read put).Preserves P Q := by
  intro origin s d s' hs hd hput
  obtain ⟨a, ha, rfl⟩ := map_eq_ok.mp hput
  exact h origin s d a hs hd ha

/-- What all values have that a value holds. -/
def Draft.Parts (Q : Draft → Prop) : Draft → Prop
  | array items _ => ∀ d ∈ items, Q d
  | object members _ => ∀ m ∈ members, Q m.2
  | _ => True

namespace Record

theorem ofItems_keeps (count : Nat) {fs : List (Field σ)} (h : ∀ f ∈ fs, f.Keeps)
    {items : List Draft} (hs : r.ofItems .text count tail fs s items = .ok s') :
    r.ofItems .kept count tail fs s items = .ok s' := by
  induction fs generalizing s items with
  | nil =>
    unfold ofItems at hs ⊢
    split at hs
    · cases hs
    · exact hs
    · cases hs
    · cases hs
  | cons f fs ih =>
    obtain ⟨hf, hfs⟩ := List.forall_mem_cons.mp h
    cases items with
    | nil => exact hs
    | cons d items =>
      obtain ⟨s₁, hput, hrest⟩ := bind_eq_ok.mp hs
      exact bind_eq_ok.mpr ⟨s₁, hf s d s₁ hput, ih hfs hrest⟩

theorem ofMembers_field (hfind : r.fields.find? (·.name == name) = some f) (hnew : name ∉ seen)
    (d : Draft) (skip : Option Stop) :
    r.ofMembers origin tail seen s ((.string (.ok name) skip, d) :: ms) =
      f.put origin s d >>= fun s => r.ofMembers origin tail (name :: seen) s ms := by
  rw [ofMembers]
  simp only [hfind, List.contains_iff_mem, hnew, if_false]

theorem ofMembers_put {put : σ → α → σ}
    (hfind : r.fields.find? (·.name == name) = some (.of name read put)) (hnew : name ∉ seen)
    (hread : read origin d = .ok a) (skip : Option Stop) :
    r.ofMembers origin tail seen s ((.string (.ok name) skip, d) :: ms) =
      r.ofMembers origin tail (name :: seen) (put s a) ms := by
  have hput : (Field.of name read put).put origin s d = .ok (put s a) :=
    congrArg (Except.map (put s)) hread
  rw [ofMembers_field hfind hnew, hput]
  rfl

theorem ofMembers_unknown (hfind : r.fields.find? (·.name == name) = none)
    (hstop : d.stop? = none) (skip : Option Stop) :
    r.ofMembers origin tail seen s ((.string (.ok name) skip, d) :: ms) =
      r.ofMembers origin tail seen s ms := by
  rw [ofMembers]
  simp only [hfind, hstop]

/-- What is read from a member on, if anything is: its name is readable, and it is a field that was
not there before or one that is passed over. -/
theorem ofMembers_cons_eq_ok {m : Draft × Draft}
    (h : r.ofMembers origin tail seen s (m :: ms) = .ok s') :
    ∃ name skip, m.1 = .string (.ok name) skip ∧
      ((∃ f s₁, r.fields.find? (·.name == name) = some f ∧ name ∉ seen ∧
          f.put origin s m.2 = .ok s₁ ∧ r.ofMembers origin tail (name :: seen) s₁ ms = .ok s') ∨
        (r.fields.find? (·.name == name) = none ∧ m.2.stop? = none ∧
          r.ofMembers origin tail seen s ms = .ok s')) := by
  obtain ⟨key, d⟩ := m
  unfold ofMembers at h
  split at h
  · next name skip =>
    refine ⟨name, skip, rfl, ?_⟩
    split at h
    · next f hfind =>
      split at h
      · cases h
      · next hnew =>
        obtain ⟨s₁, hput, hrest⟩ := bind_eq_ok.mp h
        exact .inl ⟨f, s₁, hfind, by simpa using hnew, hput, hrest⟩
    · next hfind =>
      split at h
      · cases h
      · next hstop => exact .inr ⟨hfind, hstop, h⟩
  · cases h
  · cases h

theorem ofMembers_keeps (h : ∀ f ∈ r.fields, f.Keeps)
    (hs : r.ofMembers .text tail seen s ms = .ok s') :
    r.ofMembers .kept tail seen s ms = .ok s' := by
  -- Each member that is accepted off the text is a known or an unknown one, and stays it.
  induction ms generalizing seen s with
  | nil => exact hs
  | cons m ms ih =>
    obtain ⟨key, d⟩ := m
    obtain ⟨name, skip, rfl, ⟨f, s₁, hfind, hnew, hput, hrest⟩ | ⟨hfind, hstop, hrest⟩⟩ :=
      ofMembers_cons_eq_ok hs
    · rw [ofMembers_field hfind hnew]
      exact bind_eq_ok.mpr ⟨s₁, h f (List.mem_of_find?_eq_some hfind) s d s₁ hput, ih hrest⟩
    · rw [ofMembers_unknown hfind hstop]
      exact ih hrest

/-- A record is read from a value that was kept as it is read off a text. -/
theorem read_keeps (h : ∀ f ∈ r.fields, f.Keeps) : Keeps r.read := by
  intro d s hs
  cases d with
  | array items tail => exact ofItems_keeps items.length h hs
  | object members tail => exact ofMembers_keeps h hs
  | _ => exact hs

theorem complete_eq_ok (h : r.complete seen s = .ok s') : s' = s := by
  unfold complete at h
  split at h
  · split at h
    · cases h
    · exact (Except.ok.inj h).symm
  · exact (Except.ok.inj h).symm

variable {P : σ → Prop} {Q : Draft → Prop}

theorem ofItems_preserves (count : Nat) {fs : List (Field σ)} (h : ∀ f ∈ fs, f.Preserves P Q)
    {items : List Draft} (hitems : ∀ d ∈ items, Q d) (hs : P s)
    (hread : r.ofItems origin count tail fs s items = .ok s') : P s' := by
  induction fs generalizing s items with
  | nil =>
    unfold ofItems at hread
    split at hread
    · cases hread
    · cases hread
      exact hs
    · cases hread
    · cases hread
  | cons f fs ih =>
    obtain ⟨hf, hfs⟩ := List.forall_mem_cons.mp h
    cases items with
    | nil =>
      unfold ofItems at hread
      split at hread
      · cases hread
      · split at hread
        · cases hread
        · cases hread
          exact hs
    | cons d items =>
      obtain ⟨hd, htail⟩ := List.forall_mem_cons.mp hitems
      obtain ⟨s₁, hput, hrest⟩ := bind_eq_ok.mp hread
      exact ih hfs htail (hf origin s d s₁ hs hd hput) hrest

theorem ofMembers_preserves (h : ∀ f ∈ r.fields, f.Preserves P Q) (hms : ∀ m ∈ ms, Q m.2)
    (hs : P s) (hread : r.ofMembers origin tail seen s ms = .ok s') : P s' := by
  induction ms generalizing seen s with
  | nil =>
    unfold ofMembers at hread
    split at hread
    · cases hread
    · rw [complete_eq_ok hread]
      exact hs
  | cons m ms ih =>
    obtain ⟨hm, htail⟩ := List.forall_mem_cons.mp hms
    obtain ⟨name, skip, -, ⟨f, s₁, hfind, -, hput, hrest⟩ | ⟨-, -, hrest⟩⟩ :=
      ofMembers_cons_eq_ok hread
    · exact ih htail (h f (List.mem_of_find?_eq_some hfind) origin s m.2 s₁ hs hm hput) hrest
    · exact ih htail hs hrest

/-- What the record without its fields has, and each field preserves, the record has that is
read. -/
theorem read_preserves (h : ∀ f ∈ r.fields, f.Preserves P Q) (hstart : P r.start)
    (hd : d.Parts Q) (hread : r.read origin d = .ok s) : P s := by
  cases d with
  | array items tail => exact ofItems_preserves items.length h hd hstart hread
  | object members tail => exact ofMembers_preserves h hd hstart hread
  | _ => cases hread

end Record

theorem readItems_map {ds : α → Draft} {as : List α} (h : ∀ a ∈ as, read origin (ds a) = .ok a) :
    readItems read origin .closed (as.map ds) = .ok as := by
  induction as with
  | nil => rfl
  | cons a as ih =>
    obtain ⟨ha, has⟩ := List.forall_mem_cons.mp h
    rw [List.map_cons, readItems, ha, ih has]
    rfl

theorem exists_of_mem_readItems {ds : List Draft} {as : List α}
    (h : readItems read origin tail ds = .ok as) (ha : a ∈ as) :
    ∃ d ∈ ds, read origin d = .ok a := by
  induction ds generalizing as with
  | nil =>
    unfold readItems at h
    split at h
    · cases h
      cases ha
    · cases h
  | cons d ds ih =>
    obtain ⟨b, hb, hrest⟩ := bind_eq_ok.mp h
    obtain ⟨bs, hbs, heq⟩ := bind_eq_ok.mp hrest
    cases heq
    rcases List.mem_cons.mp ha with rfl | ha
    · exact ⟨d, List.mem_cons_self, hb⟩
    · obtain ⟨d', hd', hread⟩ := ih hbs ha
      exact ⟨d', List.mem_cons_of_mem d hd', hread⟩

theorem exists_of_mem_readList {as : List α} (h : readList read origin d = .ok as) (ha : a ∈ as) :
    ∃ items tail, d = .array items tail ∧ ∃ item ∈ items, read origin item = .ok a := by
  cases d with
  | array items tail => exact ⟨items, tail, rfl, exists_of_mem_readItems h ha⟩
  | _ => cases h

end SourceDeps.Json
