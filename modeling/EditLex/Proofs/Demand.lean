import EditLex.Proofs.PlainReader
import EditLex.Proofs.Supply

/-!
How often a reader asks its producer. An operation has to see the bytes up to some place
(`Lookahead.Plain.demand`), and a run of operations makes the least number of calls that covers the
largest of these demands, whatever the size of the pulls (`Lookahead.calls_performAllUpTo`).
-/
namespace EditLex.Lookahead

namespace Plain

/-- How many bytes of the content an operation has to see. Looking past every end it sees none, and
`takeWhile` sees the first byte that is rejected. -/
def demand (r : Plain) : Op → Nat
  | .nth n => if n < maxCount then r.taken + n + 1 else 0
  | .takeWhile p => r.taken + (p.span 0 (r.content.drop r.taken)).length + 1
  | _ => r.taken + 1

/-- How many bytes of the content operations have to see, one after another. -/
def demands : List Op → Plain → Nat
  | [], _ => 0
  | op :: ops, r => max (r.demand op) (demands ops (r.perform op).2)

theorem perform_snd (r : Plain) (op : Op) :
    (r.perform op).2 = ⟨r.content, (r.perform op).2.taken⟩ :=
  congrArg (Plain.mk · _) (r.content_perform op)

end Plain

variable {σ : Type}

/-- How often the producer was asked. -/
def calls (s : Lookahead (Counted σ)) : Nat := s.source.producer.calls

variable [Producer σ]

/-- The reader has taken so many bytes of the supply, and the next ones stand in the window. -/
structure Draws (s : Lookahead (Counted σ)) (u : Supply σ) (taken : Nat) : Prop where
  pulls : 0 < s.pullSize
  room : s.pullSize ≤ bufferLimit
  supplied : s.source.Supplied u (taken + s.window.length)
  window : ((u.content s.calls).drop taken).take s.window.length = s.window

/-- `t` has taken so many bytes of the supply, and `need` bytes had to be seen on the way from
`s`. -/
structure Sees (s : Lookahead (Counted σ)) (u : Supply σ) (need taken : Nat)
    (t : Lookahead (Counted σ)) : Prop where
  draws : t.Draws u taken
  asks : u.Asks s.calls need t.calls

theorem Sees.trans {s t v : Lookahead (Counted σ)} {u : Supply σ} {need need' taken taken' : Nat}
    (h : s.Sees u need taken t) (h' : t.Sees u need' taken' v) :
    s.Sees u (max need need') taken' v :=
  ⟨h'.draws, h.asks.trans h'.asks⟩

/-- What was seen is not lost to want of room. -/
theorem Sees.settle {α : Type} {s t : Lookahead (Counted σ)} {u : Supply σ} {need taken : Nat}
    (h : s.Sees u need taken t) {wanted : Nat}
    (hend : wanted ≤ t.window.length ∨ t.source.ended = true) (answer : α) :
    (∃ given, (s.settle t wanted answer).1 = .ok given) ∧
      s.Sees u need taken (s.settle t wanted answer).2 := by
  rw [settle_of_enough h.draws.room s hend answer]
  exact ⟨⟨answer, rfl⟩, h⟩

theorem draws_ofSource (u : Supply σ) (start : Position) {pullSize : Nat}
    (h : max pullSize 1 ≤ bufferLimit) :
    (ofSource (.beginAt u.initial (⟨u.producer, 0⟩ : Counted σ) start) pullSize).Draws u 0 where
  pulls := Nat.lt_of_lt_of_le Nat.one_pos (Nat.le_max_right _ _)
  room := h
  supplied := Source.supplied_beginAt u start
  window := rfl

namespace Draws
variable {u : Supply σ} {s : Lookahead (Counted σ)} {taken : Nat}

theorem sees_self (h : s.Draws u taken) {need : Nat} (hc : u.Covers need s.calls) :
    s.Sees u need taken s :=
  ⟨h, .refl hc⟩

/-- A byte that stands in the window, or lies past the end, is that of the supply. -/
theorem getElem?_window (h : s.Draws u taken) {n : Nat}
    (hn : n < s.window.length ∨ s.source.ended = true ∧ s.source.unread = []) :
    s.window[n]? = (u.content s.calls)[taken + n]? := by
  by_cases hlt : n < s.window.length
  · have hbyte := congrArg (·[n]?) h.window
    simp only [List.getElem?_take, if_pos hlt, List.getElem?_drop] at hbyte
    exact hbyte.symm
  · have hunread := (hn.resolve_left hlt).2
    have hend := List.drop_eq_nil_iff.1 (h.supplied.unread.trans hunread)
    rw [List.getElem?_eq_none (Nat.le_of_not_lt hlt), List.getElem?_eq_none]
    exact Nat.le_trans hend (Nat.add_le_add_left (Nat.le_of_not_lt hlt) _)

theorem fill (h : s.Draws u taken) {m : Nat} (hroom : u.HasRoom m) (hle : s.calls ≤ m) {need : Nat}
    (hm : u.Covers (taken + need) m) :
    s.Sees u (taken + need) taken (s.fill need) ∧
      (need ≤ (s.fill need).window.length ∨
        (s.fill need).source.ended = true ∧ (s.fill need).source.unread = []) := by
  have hstands : u.Covers (taken + s.window.length) s.calls := .inl h.supplied.le
  have hmax : taken + s.window.length + (need - s.window.length) =
      max (taken + s.window.length) (taken + need) := by omega
  have hpull := Source.Supplied.pullAtLeast hroom h.pulls s.source (need - s.window.length) _
    h.supplied hle (hmax ▸ (hstands.mono hle).max hm)
  rw [Lookahead.fill, if_neg (Nat.not_lt.2 h.room)]
  generalize s.source.pullAtLeast s.pullSize (need - s.window.length) = r at hpull
  refine ⟨⟨⟨h.pulls, h.room, ?_, ?_⟩, ?_⟩, ?_⟩
  · rw [List.length_append, ← Nat.add_assoc]
    exact hpull.supplied
  · rw [List.length_append, List.take_add, List.drop_drop]
    show ((u.content r.2.producer.calls).drop taken).take _ ++ _ = _
    rw [Supply.take_drop_content hpull.asks.1.1 h.supplied.le]
    exact congrArg₂ _ h.window hpull.bytes
  · have hasks := hpull.asks
    rw [hmax] at hasks
    exact hasks.of_max hstands
  · rw [List.length_append]
    exact hpull.enough.imp_left fun hle => by omega

/-- A look at the byte `n` places on finds it, as calls that cover it tell it. -/
theorem nth (h : s.Draws u taken) {m n : Nat} (hroom : u.HasRoom m) (hle : s.calls ≤ m)
    (hn : n < maxCount) (hm : u.Covers (taken + n + 1) m) :
    ∃ t, s.nth n = ((u.content m)[taken + n]?, t) ∧ s.Sees u (taken + n + 1) taken t ∧
      t.window[n]? = (u.content m)[taken + n]? ∧
      (n + 1 ≤ t.window.length ∨ t.source.ended = true) := by
  have hbyte {t : Lookahead (Counted σ)} (ht : s.Sees u (taken + n + 1) taken t)
      (hend : n < t.window.length ∨ t.source.ended = true ∧ t.source.unread = []) :
      t.window[n]? = (u.content m)[taken + n]? := by
    have hcalls := ht.asks.le_of_covers hle hm
    rw [ht.draws.getElem?_window hend, ht.asks.1.2.getElem?_content hcalls]
  rw [Lookahead.nth, if_neg (Nat.not_le.2 hn)]
  cases hw : s.window[n]? with
  | some b =>
    have hlt := (List.getElem?_eq_some_iff.1 hw).1
    have hlength := h.supplied.le
    have hself : s.Sees u (taken + n + 1) taken s :=
      h.sees_self (.inl (Nat.le_trans (by omega) hlength))
    have hb := hbyte hself (.inl hlt)
    exact ⟨s, by rw [← hb, hw], hself, hb, .inl hlt⟩
  | none =>
    have hneed : u.Covers (taken + (n + 1)) m := hm
    obtain ⟨hsees, hend⟩ := h.fill hroom hle hneed
    have hb := hbyte hsees hend
    exact ⟨s.fill (n + 1), by rw [← hb], hsees, hb, hend.imp_right And.left⟩

theorem peek (h : s.Draws u taken) {m : Nat} (hroom : u.HasRoom m) (hle : s.calls ≤ m)
    (hm : u.Covers (taken + 1) m) :
    ∃ t, s.peek = ((u.content m)[taken]?, t) ∧ s.Sees u (taken + 1) taken t ∧
      t.window[0]? = (u.content m)[taken]? ∧ (1 ≤ t.window.length ∨ t.source.ended = true) :=
  h.nth hroom hle (by decide) hm

/-- The first byte of the window is let go; the position does not matter. -/
theorem drop (h : s.Draws u taken) {b : UInt8} (hb : s.window[0]? = some b) (position : Position) :
    ({ s with window := s.window.tail, position } : Lookahead (Counted σ)).Draws u (taken + 1) := by
  obtain ⟨hpulls, hpull, hsupplied, hwindow⟩ := h
  cases hw : s.window with
  | nil => simp [hw] at hb
  | cons c w =>
    rw [hw] at hsupplied hwindow
    refine ⟨hpulls, hpull, ?_, ?_⟩
    · show s.source.Supplied u (taken + 1 + w.length)
      rwa [List.length_cons, Nat.add_comm w.length 1, ← Nat.add_assoc] at hsupplied
    · show ((u.content s.calls).drop (taken + 1)).take w.length = w
      have htail := congrArg (List.drop 1) hwindow
      rwa [List.drop_take, List.drop_drop] at htail

theorem take (h : s.Draws u taken) {m : Nat} (hroom : u.HasRoom m) (hle : s.calls ≤ m) {b : UInt8}
    (hb : (u.content m)[taken]? = some b) :
    s.take.1 = some b ∧ s.Sees u (taken + 1) (taken + 1) s.take.2 := by
  have hm : u.Covers (taken + 1) m := .inl (List.getElem?_eq_some_iff.1 hb).1
  obtain ⟨t, hpeek, ht, hwindow, -⟩ := h.peek hroom hle hm
  rw [Lookahead.take, hpeek, hb]
  exact ⟨rfl, ht.draws.drop (hwindow.trans hb) (t.position.advance [b]), ht.asks⟩

/-- Gathering sees the bytes up to the first that is rejected, and that byte or the end. -/
theorem gatherUpTo (p : Test) {fuel : Nat} (h : s.Draws u taken) {m : Nat} (hroom : u.HasRoom m)
    (hle : s.calls ≤ m) (memory : Nat) (before : Bytes) :
    let accepted := p.span memory ((u.content m).drop taken)
    accepted.length < fuel → u.Covers (taken + accepted.length + 1) m →
    ∃ t, Lookahead.gatherUpTo p fuel memory before s = (accepted.reverse ++ before, t) ∧
      s.Sees u (taken + accepted.length + 1) (taken + accepted.length) t ∧
      (1 ≤ t.window.length ∨ t.source.ended = true) := by
  intro accepted hfuel hm
  induction fuel generalizing s taken memory before with
  | zero => omega
  | succ fuel ih =>
    obtain ⟨t, hpeek, ht, hwindow, hend⟩ := h.peek hroom hle (hm.of_le (by omega))
    rw [Lookahead.gatherUpTo, hpeek]
    cases hb : (u.content m)[taken]? with
    | none =>
      have hnil : accepted = [] := by
        have hdrop : (u.content m).drop taken = [] :=
          List.drop_eq_nil_of_le (List.getElem?_eq_none_iff.1 hb)
        simp [accepted, hdrop, Test.span]
      rw [hnil]
      exact ⟨t, rfl, ht, hend⟩
    | some b =>
      obtain ⟨hlt, hget⟩ := List.getElem?_eq_some_iff.1 hb
      have hdrop : (u.content m).drop taken = b :: (u.content m).drop (taken + 1) := by
        rw [List.drop_eq_getElem_cons hlt, hget]
      dsimp only
      cases hp : p memory b with
      | none =>
        have hnil : accepted = [] := by simp [accepted, hdrop, Test.span, hp]
        rw [hnil]
        exact ⟨t, by simp, ht, hend⟩
      | some memory' =>
        have hcons : accepted = b :: p.span memory' ((u.content m).drop (taken + 1)) := by
          simp [accepted, hdrop, Test.span, hp]
        rw [hcons, List.length_cons] at hfuel hm ⊢
        have hcalls := ht.asks.le_of_covers hle (hm.of_le (by omega))
        have hnext := ht.draws.drop (hwindow.trans hb) t.position
        obtain ⟨v, hgather, hsees, hend'⟩ := ih hnext hcalls memory' (b :: before) (by omega)
          (hm.of_le (by omega))
        refine ⟨v, ?_, ⟨?_, ?_⟩, hend'⟩
        · dsimp only
          rw [hgather]
          simp
        · have hdraws := hsees.draws
          rwa [Nat.add_right_comm] at hdraws
        · have hasks := ht.asks.trans hsees.asks
          rw [Nat.max_eq_right (by omega), Nat.add_right_comm taken 1] at hasks
          exact hasks

/-- One operation sees what it has to see, for the least number of calls, and does not fault. -/
theorem performUpTo (h : s.Draws u taken) {m fuel : Nat} (hroom : u.HasRoom m) (hle : s.calls ≤ m)
    (hfuel : (u.content m).length < fuel) (op : Op) :
    let r : Plain := ⟨u.content m, taken⟩
    u.Covers (r.demand op) m →
    (∃ answer, (s.performUpTo fuel op).1 = .ok answer) ∧
      s.Sees u (r.demand op) (r.perform op).2.taken (s.performUpTo fuel op).2 := by
  intro r hm
  cases op with
  | peek =>
    obtain ⟨t, hpeek, ht, -, hend⟩ := h.peek hroom hle hm
    simp only [Lookahead.performUpTo, hpeek]
    exact ht.settle hend _
  | nth n =>
    simp only [Plain.demand] at hm ⊢
    split at hm
    · next hn =>
      obtain ⟨t, hnth, ht, -, hend⟩ := h.nth hroom hle hn hm
      simp only [Lookahead.performUpTo, hnth, if_pos hn]
      exact ht.settle hend _
    · next hn =>
      simp only [Lookahead.performUpTo, Lookahead.nth, if_pos (Nat.not_lt.1 hn), if_neg hn]
      exact (h.sees_self (.inl (Nat.zero_le _))).settle (.inl (Nat.zero_le _)) _
  | take =>
    obtain ⟨t, hpeek, ht, -, hend⟩ := h.peek hroom hle hm
    simp only [Lookahead.performUpTo, Plain.perform, r]
    cases hb : (u.content m)[taken]? with
    | none =>
      simp only [Lookahead.take, hpeek, hb]
      exact ht.settle hend _
    | some b =>
      obtain ⟨hfound, htake⟩ := h.take hroom hle hb
      rw [hfound]
      exact htake.settle (.inl (Nat.zero_le _)) _
  | takeIf b =>
    obtain ⟨t, hpeek, ht, -, hend⟩ := h.peek hroom hle hm
    simp only [Lookahead.performUpTo, Lookahead.takeIf, hpeek, Plain.perform, r]
    by_cases hb : (u.content m)[taken]? = some b
    · have hcalls := ht.asks.le_of_covers hle hm
      have htake := ht.trans (ht.draws.take hroom hcalls hb).2
      rw [Nat.max_self] at htake
      simp only [if_pos hb]
      exact htake.settle (.inl (Nat.zero_le _)) _
    · simp only [if_neg hb]
      exact ht.settle hend _
  | takeWhile p =>
    have hlength := (p.span_prefix 0 ((u.content m).drop taken)).length_le
    rw [List.length_drop] at hlength
    have hshort : (p.span 0 ((u.content m).drop taken)).length < fuel := by omega
    obtain ⟨t, hgather, ht, hend⟩ := h.gatherUpTo p hroom hle 0 [] hshort hm
    simp only [Lookahead.performUpTo, takeWhileUpTo, hgather]
    apply Sees.settle
    · exact ⟨⟨ht.draws.pulls, ht.draws.room, ht.draws.supplied, ht.draws.window⟩, ht.asks⟩
    · split
      · exact hend
      · exact .inl (Nat.zero_le _)
  | atEnd =>
    obtain ⟨t, hpeek, ht, -, hend⟩ := h.peek hroom hle hm
    simp only [Lookahead.performUpTo, Lookahead.atEnd, hpeek]
    exact ht.settle hend _

/-- So does a run of operations. -/
theorem performAllUpTo (h : s.Draws u taken) {m fuel : Nat} (hroom : u.HasRoom m)
    (hle : s.calls ≤ m) (hfuel : (u.content m).length < fuel) (ops : List Op) :
    let r : Plain := ⟨u.content m, taken⟩
    u.Covers (Plain.demands ops r) m →
    (∀ answer ∈ (Lookahead.performAllUpTo fuel ops s).1, ∃ given, answer = .ok given) ∧
      u.Asks s.calls (Plain.demands ops r) (Lookahead.performAllUpTo fuel ops s).2.calls := by
  intro r hm
  induction ops generalizing s taken with
  | nil => exact ⟨fun _ ha => absurd ha List.not_mem_nil, .refl (.inl (Nat.zero_le _))⟩
  | cons op ops ih =>
    rw [Plain.demands] at hm
    obtain ⟨hok, hsees⟩ := h.performUpTo hroom hle hfuel op (hm.of_le (Nat.le_max_left _ _))
    have hcalls := hsees.asks.le_of_covers hle (hm.of_le (Nat.le_max_left _ _))
    rw [r.perform_snd] at hm
    obtain ⟨hoks, hasks⟩ := ih hsees.draws hcalls (hm.of_le (Nat.le_max_right _ _))
    rw [Plain.demands, r.perform_snd]
    exact ⟨List.forall_mem_cons.2 ⟨hok, hoks⟩, hsees.asks.trans hasks⟩

end Draws

namespace Plain
variable {u : Supply σ} {k m taken : Nat}

/-- Bytes that come behind the one that stopped `takeWhile` do not matter. -/
theorem span_eq_of_le (hle : k ≤ m) (p : Test)
    (hk : u.Covers (taken + (p.span 0 ((u.content k).drop taken)).length + 1) k) :
    p.span 0 ((u.content m).drop taken) = p.span 0 ((u.content k).drop taken) := by
  rcases hk with hk | hk
  · obtain ⟨more, hmore⟩ := u.content_prefix hle
    have hshort : (p.span 0 ((u.content k).drop taken)).length <
        ((u.content k).drop taken).length := by
      rw [List.length_drop]
      omega
    rw [← hmore, List.drop_append_of_le_length (by omega), p.span_append_of_lt hshort]
  · rw [(Supply.ended_mono hle hk).2]

/-- What an operation has to see, and what it takes, does not change when there is more behind
what it has seen. -/
theorem demand_eq_of_le (hle : k ≤ m) {op : Op} (hk : u.Covers (demand ⟨u.content k, taken⟩ op) k) :
    demand ⟨u.content m, taken⟩ op = demand ⟨u.content k, taken⟩ op ∧
      (perform ⟨u.content m, taken⟩ op).2.taken = (perform ⟨u.content k, taken⟩ op).2.taken := by
  cases op with
  | peek | nth | atEnd => exact ⟨rfl, rfl⟩
  | take =>
    refine ⟨rfl, ?_⟩
    rw [perform, perform, hk.getElem?_content hle]
    cases (u.content k)[taken]? <;> rfl
  | takeIf b =>
    refine ⟨rfl, ?_⟩
    rw [perform, perform, hk.getElem?_content hle]
    split <;> rfl
  | takeWhile p =>
    have hspan := span_eq_of_le hle p hk
    simp only [demand, perform, skip, hspan, and_self]

/-- What operations have to see does not change when there is more behind it. -/
theorem demands_eq_of_le (hle : k ≤ m) {ops : List Op}
    (hk : u.Covers (demands ops ⟨u.content k, taken⟩) k) :
    demands ops ⟨u.content m, taken⟩ = demands ops ⟨u.content k, taken⟩ := by
  induction ops generalizing taken with
  | nil => rfl
  | cons op ops ih =>
    rw [demands, perform_snd] at hk
    obtain ⟨hdemand, htaken⟩ := demand_eq_of_le hle (hk.of_le (Nat.le_max_left _ _))
    have hrest := ih (hk.of_le (Nat.le_max_right _ _))
    rw [demands, demands, perform_snd ⟨u.content m, taken⟩, perform_snd ⟨u.content k, taken⟩,
      hdemand, htaken, hrest]

end Plain

/-- A reader asks its producer as often as the operations need it, and no more: where the demand of
the operations is covered by some number of calls, the reader makes the least such number, whatever
the size of the pulls, and never one behind an empty chunk. -/
theorem calls_performAllUpTo (producer : σ) (initial : Bytes) (start : Position) {ops : List Op}
    {enough fuel : Nat} (hroom : Supply.HasRoom ⟨initial, producer⟩ enough)
    (hends : Supply.Covers ⟨initial, producer⟩
      (Plain.demands ops ⟨Supply.content ⟨initial, producer⟩ enough, 0⟩) enough)
    (hfuel : (Supply.content ⟨initial, producer⟩ enough).length < fuel) {pullSize : Nat}
    (hpull : max pullSize 1 ≤ bufferLimit) :
    let u : Supply σ := ⟨initial, producer⟩
    let demand := Plain.demands ops ⟨u.content enough, 0⟩
    let run (pullSize : Nat) := performAllUpTo fuel ops
      (ofSource (.beginAt initial (⟨producer, 0⟩ : Counted σ) start) pullSize)
    (∀ more, enough ≤ more → Plain.demands ops ⟨u.content more, 0⟩ = demand) ∧
      (∀ answer ∈ (run pullSize).1, ∃ given, answer = .ok given) ∧
      IsLeast {calls | demand ≤ (u.content calls).length ∨ u.Ended calls} (run pullSize).2.calls ∧
      (∀ calls, u.Ended calls → (run pullSize).2.calls ≤ calls) ∧
      ∀ other, max other 1 ≤ bufferLimit → (run other).2.calls = (run pullSize).2.calls := by
  intro u demand run
  have hrun {size : Nat} (hsize : max size 1 ≤ bufferLimit) :
      (∀ answer ∈ (run size).1, ∃ given, answer = .ok given) ∧
        u.Asks 0 demand (run size).2.calls :=
    (draws_ofSource u start hsize).performAllUpTo hroom (Nat.zero_le _) hfuel ops hends
  obtain ⟨hok, hasks⟩ := hrun hpull
  refine ⟨fun more hmore => Plain.demands_eq_of_le hmore hends, hok, ?_, ?_, ?_⟩
  · exact ⟨hasks.1.2, fun calls hcalls => hasks.le_of_covers (Nat.zero_le _) hcalls⟩
  · intro calls hended
    exact hasks.le_of_covers (Nat.zero_le _) (.inr hended)
  · intro other hother
    exact (hrun hother).2.unique hasks

/-- A producer without an end, which always brings the same bytes. -/
structure Endless where
  chunk : Bytes

instance : Producer Endless where
  next e := ⟨e.chunk, e, []⟩

theorem calls_performAllUpTo_of_endless :
    let u : Supply Endless := ⟨[], ⟨[97, 98]⟩⟩
    let ops : List Op := [.nth 2, .take, .takeWhile (.ofPredicate (· = 98)), .atEnd]
    let source := Source.beginAt u.initial (⟨u.producer, 0⟩ : Counted Endless) .start
    u.HasRoom 2 ∧ u.Covers (Plain.demands ops ⟨u.content 2, 0⟩) 2 ∧ (u.content 2).length < 5 ∧
      max 256 1 ≤ bufferLimit ∧ (performAllUpTo 5 ops (ofSource source 256)).2.calls = 2 := by
  intro u ops source
  have hroom : u.HasRoom 2 := fun _ _ => rfl
  have hends : u.Covers (Plain.demands ops ⟨u.content 2, 0⟩) 2 := .inl (by decide)
  have hfuel : (u.content 2).length < 5 := by decide
  have hpull : max 256 1 ≤ bufferLimit := by decide
  obtain ⟨-, -, hleast, -, -⟩ :=
    calls_performAllUpTo u.producer u.initial .start hroom hends hfuel hpull
  have hfewer : ∀ calls < 2, ¬u.Covers (Plain.demands ops ⟨u.content 2, 0⟩) calls := by decide
  refine ⟨hroom, hends, hfuel, hpull, hleast.unique ⟨hends, ?_⟩⟩
  exact fun calls hcalls => Nat.le_of_not_lt fun hlt => hfewer calls hlt hcalls

end EditLex.Lookahead
