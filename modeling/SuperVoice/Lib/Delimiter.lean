import SuperVoice.Lib.Bytes

/-! Encodings that end where an element of another kind begins: in front of such an element a value
is read in one way only. -/
namespace Delimiter
variable {α β : Type*} {enc : α → List β} {ok : α → Prop} {stop : β → Prop}

/-- Nothing follows, or an element that ends what stands before it. -/
def Stops (stop : β → Prop) (t : List β) : Prop := ∀ c ∈ t.head?, stop c

/-- Two values of which the encodings go on alike are the same, and so is what follows. -/
def Delimited (enc : α → List β) (ok : α → Prop) (stop : β → Prop) : Prop :=
  ∀ a b t t', ok a → ok b → Stops stop t → Stops stop t' → enc a ++ t = enc b ++ t' →
    a = b ∧ t = t'

theorem stops_cons {c : β} {t : List β} (hc : stop c) : Stops stop (c :: t) := by
  intro d hd
  cases hd
  exact hc

theorem stops_append {c : β} {t : List β} (h : t.head? = some c) (hc : stop c) (r : List β) :
    Stops stop (t ++ r) := by
  intro d hd
  rw [List.head?_append, h, Option.some_or] at hd
  cases hd
  exact hc

theorem Delimited.inj {a b : α} {t t' : List β} (hd : Delimited enc ok stop) (ha : ok a) (hb : ok b)
    (ht : Stops stop t) (ht' : Stops stop t') (h : enc a ++ t = enc b ++ t') : a = b ∧ t = t' :=
  hd a b t t' ha hb ht ht' h

theorem append_inj_of_stops {as bs t t' : List β} (has : ∀ x ∈ as, ¬stop x)
    (hbs : ∀ x ∈ bs, ¬stop x) (ht : Stops stop t) (ht' : Stops stop t') (h : as ++ t = bs ++ t') :
    as = bs ∧ t = t' := by
  induction as generalizing bs with
  | nil =>
    cases bs with
    | nil => exact ⟨rfl, h⟩
    | cons b bs =>
      subst h
      exact absurd (ht b rfl) (hbs b List.mem_cons_self)
  | cons a as ih =>
    cases bs with
    | nil =>
      subst h
      exact absurd (ht' a rfl) (has a List.mem_cons_self)
    | cons b bs =>
      rw [List.cons_append, List.cons_append, List.cons.injEq] at h
      obtain ⟨rfl, h⟩ := h
      obtain ⟨rfl, hrest⟩ := ih (fun x hx => has x (List.mem_cons_of_mem _ hx))
        (fun x hx => hbs x (List.mem_cons_of_mem _ hx)) h
      exact ⟨rfl, hrest⟩

/-- An encoding without the elements that end it. -/
theorem delimited_of_forall (hinj : ∀ a b, ok a → ok b → enc a = enc b → a = b)
    (hfree : ∀ a, ok a → ∀ x ∈ enc a, ¬stop x) : Delimited enc ok stop := by
  intro a b t t' ha hb ht ht' h
  obtain ⟨heq, hrest⟩ := append_inj_of_stops (hfree a ha) (hfree b hb) ht ht' h
  exact ⟨hinj a b ha hb heq, hrest⟩

/-- Words of which none begins another one, and none with an element that ends a text. -/
theorem delimited_flatMap {word : α → List β}
    (hword : ∀ a b t t', word a ++ t = word b ++ t' → a = b ∧ t = t')
    (hhead : ∀ a, ∃ c r, word a = c :: r ∧ ¬stop c) :
    Delimited (List.flatMap word) (fun _ => True) stop := by
  intro as bs t t' _ _ ht ht' h
  induction as generalizing bs with
  | nil =>
    cases bs with
    | nil => exact ⟨rfl, h⟩
    | cons b bs =>
      obtain ⟨c, r, hb, hc⟩ := hhead b
      rw [List.flatMap_cons, hb] at h
      subst h
      exact absurd (ht c rfl) hc
  | cons a as ih =>
    cases bs with
    | nil =>
      obtain ⟨c, r, ha, hc⟩ := hhead a
      rw [List.flatMap_cons, ha] at h
      subst h
      exact absurd (ht' c rfl) hc
    | cons b bs =>
      rw [List.flatMap_cons, List.flatMap_cons, List.append_assoc, List.append_assoc] at h
      obtain ⟨rfl, hnext⟩ := hword a b _ _ h
      obtain ⟨rfl, hrest⟩ := ih bs hnext
      exact ⟨rfl, hrest⟩

/-- A numeral ends where something that is no digit begins. -/
theorem delimited_decimal :
    Delimited Bytes.decimal (fun _ => True) fun c => ¬Bytes.IsDigit c :=
  delimited_of_forall (fun _ _ _ _ h => Bytes.decimal_injective h)
    fun n _ d hd => not_not_intro (Bytes.decimal_isDigit n d hd)

end Delimiter
