import EditLex.Focused

/-! Moving the focus of a sequence keeps its elements and stops at its ends. -/
namespace EditLex.Focused
variable {α : Type}

theorem focus_eq (c : Focused α) : c.focus = c.before.items.length := c.before.size_eq

theorem size_eq (c : Focused α) : c.size = c.toList.length := by
  simp [size, toList, c.before.size_eq, c.after.size_eq]

theorem before_eq (c : Focused α) : c.before.items = (c.toList.take c.focus).reverse := by
  rw [focus_eq, toList, List.take_left' (List.length_reverse ..), List.reverse_reverse]

theorem after_eq (c : Focused α) : c.after.items = c.toList.drop c.focus := by
  rw [focus_eq, toList, List.drop_left' (List.length_reverse ..)]

/-- The elements and the focus are all there is to a sequence. -/
theorem eq_of_toList_eq {c d : Focused α} (hl : c.toList = d.toList) (hf : c.focus = d.focus) :
    c = d := by
  have hbefore : c.before = d.before := Stack.eq_of_items_eq (by rw [before_eq, before_eq, hl, hf])
  have hafter : c.after = d.after := Stack.eq_of_items_eq (by rw [after_eq, after_eq, hl, hf])
  show (⟨c.before, c.after⟩ : Focused α) = ⟨d.before, d.after⟩
  rw [hbefore, hafter]

theorem forward_spec (c : Focused α) (n : Nat) :
    (c.forward n).toList = c.toList ∧ (c.forward n).focus = min (c.focus + n) c.size := by
  induction n generalizing c with
  | zero =>
    refine ⟨rfl, ?_⟩
    simp only [forward, focus, size]
    omega
  | succ n ih =>
    rcases c with ⟨before, ⟨items, size, hs⟩⟩
    cases items with
    | nil =>
      simp only [List.length_nil] at hs
      subst hs
      refine ⟨rfl, ?_⟩
      simp only [forward, Stack.pop?, focus, Focused.size]
      omega
    | cons a items =>
      simp only [forward, Stack.pop?]
      obtain ⟨hl, hf⟩ := ih ⟨before.push a, ⟨items, size - 1, by rw [hs]; rfl⟩⟩
      refine ⟨by rw [hl]; simp [toList], ?_⟩
      rw [hf]
      simp only [focus, Focused.size, Stack.push, hs, List.length_cons]
      omega

theorem backward_spec (c : Focused α) (n : Nat) :
    (c.backward n).toList = c.toList ∧ (c.backward n).focus = c.focus - n := by
  induction n generalizing c with
  | zero => exact ⟨rfl, rfl⟩
  | succ n ih =>
    rcases c with ⟨⟨items, size, hs⟩, after⟩
    cases items with
    | nil =>
      simp only [List.length_nil] at hs
      subst hs
      refine ⟨rfl, ?_⟩
      simp only [backward, Stack.pop?, focus]
      omega
    | cons a items =>
      simp only [backward, Stack.pop?]
      obtain ⟨hl, hf⟩ := ih ⟨⟨items, size - 1, by rw [hs]; rfl⟩, after.push a⟩
      refine ⟨by rw [hl]; simp [toList], ?_⟩
      rw [hf]
      simp only [focus]
      omega

theorem moveTo_spec (c : Focused α) (index : Nat) :
    (c.moveTo index).toList = c.toList ∧ (c.moveTo index).focus = min index c.size := by
  have hsize : c.focus ≤ c.size := Nat.le_add_right _ _
  unfold moveTo
  split
  · obtain ⟨hl, hf⟩ := c.forward_spec (index - c.focus)
    exact ⟨hl, by rw [hf]; omega⟩
  · obtain ⟨hl, hf⟩ := c.backward_spec (c.focus - index)
    exact ⟨hl, by rw [hf]; omega⟩

/-- Of two moves the second counts. -/
theorem moveTo_moveTo (c : Focused α) (first index : Nat) :
    (c.moveTo first).moveTo index = c.moveTo index := by
  obtain ⟨hlfirst, -⟩ := c.moveTo_spec first
  obtain ⟨hl, hf⟩ := c.moveTo_spec index
  obtain ⟨hl', hf'⟩ := (c.moveTo first).moveTo_spec index
  apply eq_of_toList_eq
  · rw [hl', hlfirst, hl]
  · rw [hf', hf, size_eq, size_eq, hlfirst]

/-- What lies before the focus after a move to `index`. -/
theorem before_moveTo (c : Focused α) (index : Nat) :
    (c.moveTo index).before.items = (c.toList.take index).reverse := by
  obtain ⟨hl, hf⟩ := c.moveTo_spec index
  rw [before_eq, hl, hf, c.size_eq, ← List.take_eq_take_min]

theorem preceding?_moveTo (c : Focused α) (index : Nat) :
    (c.moveTo index).preceding? = (c.toList.take index).getLast? := by
  rw [preceding?, Stack.peek?, before_moveTo, List.head?_reverse]

theorem toList_replaceAfter (c : Focused α) (items : List α) :
    (c.replaceAfter items).toList = c.before.items.reverse ++ items := by
  simp [replaceAfter, toList]

end EditLex.Focused
