/-!
# Computations that can fail

What the success or failure of a composed computation says about its parts.
-/

namespace MissionGraph.Success

variable {ε α β : Type}

theorem map_eq_ok_iff {first : Except ε α} {change : α → β} {result : β} :
    first.map change = .ok result ↔ ∃ value, first = .ok value ∧ change value = result := by
  cases first with
  | error fault => exact ⟨(nomatch ·), fun ⟨_, impossible, _⟩ => nomatch impossible⟩
  | ok value =>
      constructor
      · intro same
        exact ⟨value, rfl, Except.ok.inj same⟩
      · rintro ⟨_, found, rfl⟩
        cases found
        rfl

theorem map_eq_error_iff {first : Except ε α} {change : α → β} {fault : ε} :
    first.map change = .error fault ↔ first = .error fault := by
  cases first with
  | error met => exact ⟨fun same => congrArg _ (Except.error.inj same), fun same => congrArg _ (Except.error.inj same)⟩
  | ok value => exact ⟨(nomatch ·), (nomatch ·)⟩

theorem bind_eq_ok_iff {first : Except ε α} {next : α → Except ε β} {result : β} :
    first >>= next = .ok result ↔ ∃ value, first = .ok value ∧ next value = .ok result := by
  cases first with
  | error fault => exact ⟨(nomatch ·), fun ⟨_, impossible, _⟩ => nomatch impossible⟩
  | ok value =>
      constructor
      · intro same
        exact ⟨value, rfl, same⟩
      · rintro ⟨_, found, same⟩
        cases found
        exact same

@[simp] theorem ok_bind (value : α) (next : α → Except ε β) : (Except.ok value >>= next) = next value :=
  rfl

@[simp] theorem ok_map (value : α) (change : α → β) :
    (Except.ok value : Except ε α).map change = .ok (change value) :=
  rfl

theorem exists_of_isSome {first : Except ε α} (present : first.toOption.isSome = true) :
    ∃ value, first = .ok value := by
  cases first with
  | error fault => cases present
  | ok value => exact ⟨value, rfl⟩

/-- A computation whose result is evaluated further has a result. -/
theorem exists_of_toOption_bind {first : Except ε α} {next : α → Option β} {result : β}
    (present : (first.toOption >>= next) = some result) : ∃ value, first = .ok value ∧ next value = some result := by
  cases first with
  | error fault => cases present
  | ok value => exact ⟨value, rfl, present⟩

/-- A fold that succeeds has succeeded at every element. -/
theorem exists_of_foldlM_eq_ok {step : β → α → Except ε β} {values : List α} {start result : β}
    (success : values.foldlM step start = .ok result) {value : α} (member : value ∈ values) :
    ∃ before after, step before value = .ok after := by
  induction values generalizing start with
  | nil => cases member
  | cons first others ih =>
      rw [List.foldlM_cons] at success
      obtain ⟨next, found, continued⟩ := bind_eq_ok_iff.mp success
      rcases List.mem_cons.mp member with rfl | later
      · exact ⟨start, next, found⟩
      · exact ih continued later

theorem map_mapError {δ : Type} (rename : ε → δ) (change : α → β) (first : Except ε α) :
    (first.mapError rename).map change = (first.map change).mapError rename := by
  cases first <;> rfl

/-- A fold whose steps fail with other faults fails with another fault. -/
theorem foldlM_mapError {δ : Type} {rename : ε → δ} {step : β → α → Except ε β} {other : β → α → Except δ β}
    (same : ∀ start value, other start value = (step start value).mapError rename) (values : List α) (start : β) :
    values.foldlM other start = (values.foldlM step start).mapError rename := by
  induction values generalizing start with
  | nil => rfl
  | cons value rest ih =>
      rw [List.foldlM_cons, List.foldlM_cons, same]
      cases step start value with
      | error fault => rfl
      | ok next => exact ih next

/-- A fold whose steps can change places succeeds in every order, with the same result. -/
theorem foldlM_eq_ok_of_perm {step : β → α → Except ε β}
    (swaps : ∀ start first second result, (step start first >>= fun next => step next second) = .ok result →
      (step start second >>= fun next => step next first) = .ok result)
    {values others : List α} (permuted : values.Perm others) {start result : β}
    (success : values.foldlM step start = .ok result) : others.foldlM step start = .ok result := by
  induction permuted generalizing start with
  | nil => exact success
  | cons value _ ih =>
      rw [List.foldlM_cons] at success ⊢
      obtain ⟨next, found, continued⟩ := bind_eq_ok_iff.mp success
      exact bind_eq_ok_iff.mpr ⟨next, found, ih continued⟩
  | swap second first rest =>
      simp only [List.foldlM_cons, ← bind_assoc] at success ⊢
      obtain ⟨next, found, continued⟩ := bind_eq_ok_iff.mp success
      exact bind_eq_ok_iff.mpr ⟨next, swaps _ _ _ _ found, continued⟩
  | trans _ _ ihFirst ihSecond => exact ihSecond (ihFirst success)

/-- Reading a list gives a result exactly if reading each of its values does. -/
theorem exists_mapM_iff {read : α → Except ε β} {values : List α} :
    (∃ results, values.mapM read = .ok results) ↔ ∀ value ∈ values, ∃ result, read value = .ok result := by
  induction values with
  | nil => exact ⟨fun _ _ => nofun, fun _ => ⟨[], rfl⟩⟩
  | cons first others ih =>
      simp only [List.mapM_cons, bind_eq_ok_iff, List.forall_mem_cons, ← ih]
      constructor
      · rintro ⟨_, result, found, rest, foundRest, _⟩
        exact ⟨⟨result, found⟩, rest, foundRest⟩
      · rintro ⟨⟨result, found⟩, rest, foundRest⟩
        exact ⟨_, result, found, rest, foundRest, rfl⟩

/-- Where reading a list fails, reading one of its values fails in the same way. -/
theorem exists_of_mapM_eq_error {read : α → Except ε β} {values : List α} {fault : ε}
    (failure : values.mapM read = .error fault) : ∃ value ∈ values, read value = .error fault := by
  induction values with
  | nil => cases failure
  | cons first others ih =>
      rw [List.mapM_cons] at failure
      cases found : read first with
      | error met =>
          rw [found] at failure
          cases failure
          exact ⟨first, List.mem_cons_self, found⟩
      | ok result =>
          rw [found, ok_bind] at failure
          cases foundRest : others.mapM read with
          | error met =>
              rw [foundRest] at failure
              cases failure
              obtain ⟨value, member, failed⟩ := ih foundRest
              exact ⟨value, List.mem_cons_of_mem _ member, failed⟩
          | ok rest =>
              rw [foundRest] at failure
              cases failure

end MissionGraph.Success
