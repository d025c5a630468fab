/-!
# One step after the other

A computation that can fail stops at its first failure. The lemmas here take such a
computation apart: a step and what follows it, a list that is mapped one by one, and a list
whose entries are looked at one by one until one is at fault (`FirstFault`).
-/

namespace ParamTree

/-! ## Steps that can fail -/

theorem except_bind_ok {ε α β : Type} {x : Except ε α} {f : α → Except ε β} {b : β} :
    (x >>= f) = .ok b ↔ ∃ a, x = .ok a ∧ f a = .ok b := by
  cases x <;> simp [bind, Except.bind]

theorem except_bind_error {ε α β : Type} {x : Except ε α} {f : α → Except ε β} {e : ε} :
    (x >>= f) = .error e ↔ x = .error e ∨ ∃ a, x = .ok a ∧ f a = .error e := by
  cases x <;> simp [bind, Except.bind]

theorem except_pure_ok {ε α : Type} {a b : α} : (pure a : Except ε α) = .ok b ↔ b = a := by
  simp [pure, Except.pure, eq_comm]

theorem except_map_ok {ε α β : Type} {x : Except ε α} {f : α → β} {b : β} :
    x.map f = .ok b ↔ ∃ a, x = .ok a ∧ f a = b := by
  cases x <;> simp [Except.map]

/-! ## Lists one by one -/

section

variable {ε α β : Type} {f : α → Except ε β} {xs : List α} {ys : List β}

theorem exists_mem_zip_left (length : xs.length = ys.length) {x : α} (h : x ∈ xs) :
    ∃ y, (x, y) ∈ xs.zip ys := by
  rw [← List.map_fst_zip (Nat.le_of_eq length)] at h
  obtain ⟨⟨_, y⟩, hp, rfl⟩ := List.mem_map.mp h
  exact ⟨y, hp⟩

theorem exists_mem_zip_right (length : xs.length = ys.length) {y : β} (h : y ∈ ys) :
    ∃ x, (x, y) ∈ xs.zip ys := by
  rw [← List.map_snd_zip (Nat.le_of_eq length.symm)] at h
  obtain ⟨⟨x, _⟩, hp, rfl⟩ := List.mem_map.mp h
  exact ⟨x, hp⟩

/-- A list is mapped one by one. -/
theorem mapM_ok_iff : xs.mapM f = .ok ys ↔
    xs.length = ys.length ∧ ∀ p ∈ xs.zip ys, f p.1 = .ok p.2 := by
  induction xs generalizing ys with
  | nil => cases ys <;> simp [except_pure_ok]
  | cons x xs ih =>
      simp only [List.mapM_cons, except_bind_ok, except_pure_ok, ih]
      cases ys with
      | nil => simp
      | cons y ys =>
          simp only [List.cons.injEq, List.length_cons, Nat.add_right_cancel_iff,
            List.zip_cons_cons, List.forall_mem_cons]
          constructor
          · rintro ⟨_, first, _, ⟨length, each⟩, rfl, rfl⟩
            exact ⟨length, first, each⟩
          · rintro ⟨length, first, each⟩
            exact ⟨y, first, ys, ⟨length, each⟩, rfl, rfl⟩

/-- Each result of a mapped list comes from a member. -/
theorem mem_of_mapM_ok (h : xs.mapM f = .ok ys) {y : β} (hy : y ∈ ys) : ∃ x ∈ xs, f x = .ok y := by
  obtain ⟨length, each⟩ := mapM_ok_iff.mp h
  obtain ⟨x, hp⟩ := exists_mem_zip_right length hy
  exact ⟨x, (List.of_mem_zip hp).1, each _ hp⟩

/-- Each member of a mapped list has a result. -/
theorem exists_of_mapM_ok (h : xs.mapM f = .ok ys) {x : α} (hx : x ∈ xs) : ∃ y ∈ ys, f x = .ok y := by
  obtain ⟨length, each⟩ := mapM_ok_iff.mp h
  obtain ⟨y, hp⟩ := exists_mem_zip_left length hx
  exact ⟨y, (List.of_mem_zip hp).2, each _ hp⟩

/-- A list that cannot be mapped has a member that cannot. -/
theorem exists_of_mapM_error {e : ε} (h : xs.mapM f = .error e) : ∃ x ∈ xs, f x = .error e := by
  induction xs with
  | nil => cases h
  | cons x xs ih =>
      rw [List.mapM_cons, except_bind_error] at h
      rcases h with h | ⟨y, -, h⟩
      · exact ⟨x, List.mem_cons_self, h⟩
      · rcases except_bind_error.mp h with h | ⟨ys, -, h⟩
        · obtain ⟨u, hu, h⟩ := ih h
          exact ⟨u, List.mem_cons_of_mem _ hu, h⟩
        · cases h

end

/-! ## The first fault -/

/-- The fault of the first entry that has one. What is wrong with an entry may depend on
those before it. -/
def FirstFault {α β : Type} (bad : List α → α → β → Prop) (xs : List α) (fault : β) : Prop :=
  ∃ before x after, xs = before ++ x :: after ∧
    (∀ first u last, before = first ++ u :: last → ∀ c, ¬bad first u c) ∧ bad before x fault

theorem firstFault_cons {α β : Type} {bad : List α → α → β → Prop} {x : α} {xs : List α}
    {fault : β} : FirstFault bad (x :: xs) fault ↔
      bad [] x fault ∨ (∀ c, ¬bad [] x c) ∧ FirstFault (fun before => bad (x :: before)) xs fault := by
  constructor
  · rintro ⟨before, y, after, split, good, hbad⟩
    cases before with
    | nil =>
        cases split
        exact .inl hbad
    | cons z before =>
        cases split
        refine .inr ⟨good [] x before rfl, before, y, after, rfl, ?_, hbad⟩
        rintro first u last rfl
        exact good (x :: first) u last rfl
  · rintro (hbad | ⟨hx, before, y, after, rfl, good, hbad⟩)
    · exact ⟨[], x, xs, rfl, by simp, hbad⟩
    · refine ⟨x :: before, y, after, rfl, ?_, hbad⟩
      intro first u last split
      cases first with
      | nil =>
          cases split
          exact hx
      | cons z first =>
          cases split
          exact good first u last rfl

end ParamTree
