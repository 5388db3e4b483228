import StepFlow.Coordinator.Call

/-! # Settling an agenda

`settle` carries out an agenda call by call until nothing is left of it. It ends whatever the flow
and the listeners are, also when listeners start or stop the run or add listeners on every event
they receive.

The reason is a threefold measure. There is only so much **news** ahead: a step is committed once,
it ends once, the run is stopped once, and nothing else makes an event. Between two pieces of news
the **deliveries** under way are used up, since what a listener does is no news by itself. Between
two deliveries the **width** of the agenda shrinks.

Main statement: `perform_descends`, that every call takes the measure down. -/

namespace StepFlow

/-! ## The measure -/

/-- The news ahead of a step with a status: its commit and its end. -/
def Status.outlook : Status → Nat
  | .waiting => 4
  | .inProgress => 2
  | .succeeded | .failed => 0

/-- The news that a claimed step of a skipped group still makes. -/
def Step.claimNews (s : Step) : Nat := if s.isGroup then 1 else 2

/-- The sum of a number over a list. -/
def total {α : Type} (w : α → Nat) : List α → Nat
  | [] => 0
  | a :: l => w a + total w l

namespace Call

/-- The news that a call stands for by itself. -/
def news : Call → Nat
  | .notify _ => 1
  | .complete _ _ => 2
  | .launch _ => 3
  | .skip _ claimed => total Step.claimNews claimed
  | _ => 0

/-- The deliveries that a call stands for. -/
def deliveries : Call → Nat
  | .deliver _ _ => 1
  | _ => 0

/-- The width of a call: how many calls without news or deliveries can follow from it. -/
def width : Call → Nat
  | .evaluate _ | .close _ | .countDown | .stop | .subscribe _ | .unsubscribe _ | .pause _ _ => 1
  | .childFinished _ _ => 2
  | .skip _ claimed => claimed.length + 2
  | .notify _ | .deliver _ _ | .complete _ _ | .launch _ => 0

end Call

/-- The news ahead of a coordinator: that of its steps and the stop. -/
def Coordinator.news (c : Coordinator) : Nat :=
  Table.weigh Status.outlook c.statuses.entries + (!c.stopped).toNat

/-! ## Sums -/

section Sums

variable {α β : Type}

@[simp] theorem total_nil (w : α → Nat) : total w [] = 0 := rfl

@[simp] theorem total_cons (w : α → Nat) (a : α) (l : List α) :
    total w (a :: l) = w a + total w l := rfl

@[simp] theorem total_append (w : α → Nat) (l k : List α) :
    total w (l ++ k) = total w l + total w k := by
  induction l with
  | nil => simp
  | cons a rest ih => simp [ih, Nat.add_assoc]

@[simp] theorem total_reverse (w : α → Nat) (l : List α) : total w l.reverse = total w l := by
  induction l with
  | nil => rfl
  | cons a rest ih => simp [ih, Nat.add_comm]

@[simp] theorem total_map (w : β → Nat) (f : α → β) (l : List α) :
    total w (l.map f) = total (fun a => w (f a)) l := by
  induction l with
  | nil => rfl
  | cons a rest ih => simp [ih]

theorem total_eq_mul {w : α → Nat} {k : Nat} {l : List α} (h : ∀ a ∈ l, w a = k) :
    total w l = k * l.length := by
  induction l with
  | nil => simp
  | cons a rest ih =>
    have first := h a (by simp)
    have others := ih fun b hb => h b (by simp [hb])
    simp only [total_cons, first, others, List.length_cons, Nat.mul_succ]
    omega

@[simp] theorem total_zero (l : List α) : total (fun _ => 0) l = 0 := by
  simpa using total_eq_mul (w := fun _ => 0) (k := 0) (l := l) fun _ _ => rfl

@[simp] theorem total_one (l : List α) : total (fun _ => 1) l = l.length := by
  simpa using total_eq_mul (w := fun _ => 1) (k := 1) (l := l) fun _ _ => rfl

end Sums

theorem total_flatMap_eq_zero {α β : Type} {w : β → Nat} {f : α → List β} {l : List α}
    (h : ∀ a ∈ l, total w (f a) = 0) : total w (l.flatMap f) = 0 := by
  induction l with
  | nil => rfl
  | cons a rest ih =>
    rw [List.flatMap_cons, total_append, h a (by simp), ih fun b hb => h b (by simp [hb])]

/-! ## Weights of statuses -/

namespace StatusTable

variable {w : Status → Nat}

/-- Setting a status that weighs nothing does not raise the weight. -/
theorem weigh_set_le (t : StatusTable) (n : Name) {s : Status} (h : w s = 0) :
    Table.weigh w (t.set n s).entries ≤ Table.weigh w t.entries := by
  unfold set
  split
  · exact Nat.le_refl _
  · have := Table.weigh_set w t.entries n s
    simp only
    omega

/-- Setting the status of a step that had one changes the weight by the difference. -/
theorem weigh_set_of_get? {t : StatusTable} {n : Name} {old s : Status}
    (h : t.entries.get? n = some old) :
    Table.weigh w (t.set n s).entries + w old = Table.weigh w t.entries + w s := by
  have := Table.weigh_set w t.entries n s
  simpa [set, h, Table.weightAt] using this

/-- A claim moves the weight of one step from waiting to in progress. -/
theorem weigh_claim? {t u : StatusTable} {n : Name} (h : t.claim? n = some u) :
    Table.weigh w u.entries + w .waiting = Table.weigh w t.entries + w .inProgress := by
  unfold claim? at h
  split at h
  · rename_i found
    cases h
    exact weigh_set_of_get? found
  · cases h

/-- A step that is in progress is in the table. -/
theorem get?_of_status {t : StatusTable} {n : Name} (h : t.status n = .inProgress) :
    t.entries.get? n = some .inProgress := by
  unfold status at h
  cases hg : t.entries.get? n with
  | none => simp [hg] at h
  | some s => simpa [hg] using h

end StatusTable

namespace Coordinator

/-- Claiming moves the weight of every claimed step. -/
theorem weigh_claimAll (w : Status → Nat) (steps : List Step) (t : StatusTable) :
    Table.weigh w (claimAll steps t).2.entries + w .waiting * (claimAll steps t).1.length =
      Table.weigh w t.entries + w .inProgress * (claimAll steps t).1.length := by
  induction steps generalizing t with
  | nil => simp [claimAll]
  | cons s rest ih =>
    unfold claimAll
    cases h : t.claim? s.name with
    | none => exact ih t
    | some u =>
      have here := StatusTable.weigh_claim? (w := w) h
      have later := ih u
      simp only [List.length_cons, Nat.mul_succ]
      omega

/-! ## Moves that make no news -/

@[simp] theorem news_wake (c : Coordinator) (t : Task) : (c.wake t).news = c.news := by
  unfold wake news; split <;> rfl

@[simp] theorem news_dispatch (c : Coordinator) (n : Name) (skip : Bool) :
    (c.dispatch n skip).news = c.news := by
  simp [dispatch]; rfl

@[simp] theorem news_setStage (c : Coordinator) (n : Name) (s : Stage) :
    (c.setStage n s).news = c.news := rfl

@[simp] theorem news_setExecution (c : Coordinator) (n : Name) (e : Execution) :
    (c.setExecution n e).news = c.news := rfl

@[simp] theorem news_giveBack (c : Coordinator) : c.giveBack.news = c.news := by
  unfold giveBack
  split
  · rfl
  · unfold grant
    split
    · simp; rfl
    · rfl

@[simp] theorem news_pause (c : Coordinator) (n : Name) (outcome : Option Outcome) :
    (c.pause n outcome).news = c.news := by
  unfold pause
  split
  · split
    · simp
    · split <;> rfl
  · rfl

/-! ## Calls that make no news -/

/-- The end of a step makes one piece of news. -/
theorem news_propagation (c : Coordinator) (n : Name) (code : Int) :
    total Call.news (c.propagation n code) = 1 := by
  unfold propagation
  split <;> simp [Call.news]

/-! ## Descent -/

/-- Whether carrying out a call takes the measure down: less news, or not more of it and fewer
deliveries, or not more of either and less width. -/
def Descends (c : Coordinator) (call : Call) (result : List Call × Coordinator) : Prop :=
  result.2.news + total Call.news result.1 < c.news + call.news ∨
    (result.2.news + total Call.news result.1 ≤ c.news + call.news ∧
      (total Call.deliveries result.1 < call.deliveries ∨
        (total Call.deliveries result.1 ≤ call.deliveries ∧
          total Call.width result.1 < call.width)))

theorem descends_of_news {c : Coordinator} {call : Call} {result : List Call × Coordinator}
    (h : result.2.news + total Call.news result.1 < c.news + call.news) :
    Descends c call result := .inl h

/-- A call with some width from which nothing follows descends unless it makes news. -/
theorem descends_of_width {c c' : Coordinator} {call : Call} (h : 0 < call.width)
    (news : c'.news ≤ c.news) : Descends c call ([], c') := by
  refine .inr ⟨?_, .inr ⟨Nat.zero_le _, h⟩⟩
  simp only [total_nil]
  omega

/-- Committing a step that waits moves its weight. -/
theorem weigh_commit {c : Coordinator} {s : Step} (w : Status → Nat)
    (known : c.statuses.knows s.name = true) (waits : c.status s.name = .waiting) :
    Table.weigh w (c.commit s).statuses.entries + w .waiting =
      Table.weigh w c.statuses.entries + w .inProgress :=
  StatusTable.weigh_set_of_get? (StatusTable.get?_eq_waiting_iff.2 ⟨known, waits⟩)

/-- Committing a step that waits uses up news. -/
private theorem news_commit {c : Coordinator} {s : Step}
    (known : c.statuses.knows s.name = true) (waits : c.status s.name = .waiting) :
    (c.commit s).news + 2 = c.news := by
  have moved := weigh_commit Status.outlook known waits
  have same : (c.commit s).stopped = c.stopped := rfl
  simp only [Status.outlook] at moved
  simp only [Coordinator.news, same]
  omega

private theorem descends_commitRun {c : Coordinator} {s : Step} (n : Name)
    (known : c.statuses.knows s.name = true) (waits : c.status s.name = .waiting) :
    Descends c (.evaluate n) (c.commitRun s) := by
  have used := news_commit known waits
  apply descends_of_news
  unfold commitRun
  simp only
  split
  · simp [Call.news]
    omega
  · simp only [total_nil, news_dispatch, Call.news]
    omega

private theorem total_claimNews_le (l : List Step) : total Step.claimNews l ≤ 2 * l.length := by
  induction l with
  | nil => simp
  | cons s rest ih =>
    have : s.claimNews ≤ 2 := by unfold Step.claimNews; split <;> omega
    simp only [total_cons, List.length_cons]
    omega

private theorem descends_commitSkip {c : Coordinator} {s : Step} (n : Name)
    (known : c.statuses.knows s.name = true) (waits : c.status s.name = .waiting) :
    Descends c (.evaluate n) (c.commitSkip s) := by
  apply descends_of_news
  unfold commitSkip
  split
  · have claims := weigh_claimAll Status.outlook (c.flow.below s.name) c.statuses
    -- the group is not below itself, so it is found waiting
    have found : (claimAll (c.flow.below s.name) c.statuses).2.entries.get? s.name =
        some .waiting := by
      rw [get?_claimAll (c.flow.notMem_below s.name)]
      exact StatusTable.get?_eq_waiting_iff.2 ⟨known, waits⟩
    generalize claimAll (c.flow.below s.name) c.statuses = r at claims found
    obtain ⟨claimed, below⟩ := r
    have bound := total_claimNews_le claimed
    have moved := StatusTable.weigh_set_of_get? (w := Status.outlook) (s := .inProgress) found
    simp only [Status.outlook] at claims moved
    simp only [total_cons, total_nil, Call.news, commit, Coordinator.news]
    omega
  · have used := news_commit known waits
    simp only [total_nil, news_dispatch, Call.news]
    omega

private theorem descends_evaluate (c : Coordinator) (n : Name) :
    Descends c (.evaluate n) (c.evaluate n) := by
  rcases c.evaluate_cases n with idle | ⟨s, -, known, waits, ⟨-, run⟩ | ⟨-, skip⟩⟩
  · rw [idle]
    exact descends_of_width Nat.one_pos (Nat.le_refl _)
  · rw [run]
    exact descends_commitRun n known waits
  · rw [skip]
    exact descends_commitSkip n known waits

private theorem claimNews_partition (l : List Step) :
    (l.filter (·.isGroup)).length + 2 * (l.filter (!·.isGroup)).length =
      total Step.claimNews l := by
  induction l with
  | nil => rfl
  | cons s rest ih =>
    cases h : s.isGroup <;> simp [h, Step.claimNews] at ih ⊢ <;> omega

private theorem descends_skip (c : Coordinator) (g : Name) (claimed : List Step) :
    Descends c (.skip g claimed) (c.skip g claimed) := by
  have parts := claimNews_partition claimed
  have few := List.length_filter_le (·.isGroup) claimed
  have leaves : total (fun _ => 2) (claimed.filter (!·.isGroup)) =
      2 * (claimed.filter (!·.isGroup)).length := total_eq_mul fun _ _ => rfl
  have same : (c.skip g claimed).2.news = c.news := rfl
  refine .inr ⟨?_, .inr ⟨?_, ?_⟩⟩
  · rw [same]
    simp only [skip, total_append, total_map, total_cons, total_nil, Call.news, total_zero,
      total_one, List.length_reverse, leaves]
    omega
  · simp [skip, Call.deliveries]
  · simp [skip, Call.width]
    omega

private theorem descends_close (c : Coordinator) (g : Name) :
    Descends c (.close g) (c.close g) := by
  unfold close
  split
  · exact descends_of_width Nat.one_pos (Nat.le_refl _)
  · rename_i p _
    split
    · rename_i h
      have found := StatusTable.get?_of_status h.1
      have moved := StatusTable.weigh_set_of_get? (w := Status.outlook)
        (s := .ofExitCode (if p.failed then skippedCode else 0)) found
      have last : Status.outlook (.ofExitCode (if p.failed then skippedCode else 0)) = 0 := by
        unfold Status.ofExitCode; split <;> rfl
      rw [last] at moved
      apply descends_of_news
      simp only [news_propagation, Call.news]
      simp only [Coordinator.news, Status.outlook] at moved ⊢
      omega
    · exact descends_of_width Nat.one_pos (Nat.le_refl _)

private theorem descends_complete (c : Coordinator) (n : Name) (code : Int) :
    Descends c (.complete n code) (c.perform (.complete n code)) := by
  have last : Status.outlook (.ofExitCode code) = 0 := by
    unfold Status.ofExitCode; split <;> rfl
  have moved := StatusTable.weigh_set_le c.statuses n last
  apply descends_of_news
  simp only [perform, news_propagation, Call.news]
  simp only [Coordinator.news]
  omega

private theorem descends_childFinished (c : Coordinator) (g : Name) (code : Int) :
    Descends c (.childFinished g code) (c.childFinished g code) := by
  unfold childFinished
  split <;>
    exact .inr ⟨by simp [Call.news, Coordinator.news],
      .inr ⟨by simp [Call.deliveries], by simp [Call.width]⟩⟩

private theorem descends_launch (c : Coordinator) (n : Name) :
    Descends c (.launch n) (c.launch n) := by
  apply descends_of_news
  unfold launch
  split
  · split <;> simp [Call.news]
  · simp [Call.news]

private theorem descends_stop (c : Coordinator) : Descends c .stop c.stop := by
  unfold stop
  split
  · exact descends_of_width Nat.one_pos (Nat.le_refl _)
  · rename_i h
    apply descends_of_news
    simp [startCalls, Call.news, Coordinator.news, h]

private theorem total_reactionCalls (c : Coordinator) {w : Call → Nat} (r : Reaction)
    (start : ∀ n, w (.evaluate n) = 0) (stop : w .stop = 0) (add : ∀ l, w (.subscribe l) = 0)
    (remove : ∀ k, w (.unsubscribe k) = 0) : total w (c.reactionCalls r) = 0 := by
  cases r <;> simp [reactionCalls, startCalls, start, stop, add, remove]

/-- A delivery takes the measure down however the listener reacts to it and whatever it leaves of
the registry. -/
theorem descends_deliver (c : Coordinator) (number : Nat) (e : Event) (reactions : List Reaction)
    (registry : Registry) :
    Descends c (.deliver number e)
      (reactions.flatMap c.reactionCalls, { c with registry := registry }) := by
  have quiet : total Call.news (reactions.flatMap c.reactionCalls) = 0 :=
    total_flatMap_eq_zero fun r _ =>
      total_reactionCalls c r (fun _ => rfl) rfl (fun _ => rfl) fun _ => rfl
  have spent : total Call.deliveries (reactions.flatMap c.reactionCalls) = 0 :=
    total_flatMap_eq_zero fun r _ =>
      total_reactionCalls c r (fun _ => rfl) rfl (fun _ => rfl) fun _ => rfl
  refine .inr ⟨?_, .inl ?_⟩
  · simp only [quiet, Call.news]
    exact Nat.le_refl _
  · simp only [spent, Call.deliveries]
    exact Nat.one_pos

/-- **Every call takes the measure down.** -/
theorem perform_descends (c : Coordinator) (call : Call) :
    Descends c call (c.perform call) := by
  cases call with
  | stop => exact descends_stop c
  | subscribe l => exact descends_of_width Nat.one_pos (Nat.le_refl _)
  | unsubscribe number => exact descends_of_width Nat.one_pos (Nat.le_refl _)
  | notify e =>
    apply descends_of_news
    simp [perform, Call.news]
  | deliver number e => exact descends_deliver c number e _ _
  | evaluate n => exact descends_evaluate c n
  | skip g claimed => exact descends_skip c g claimed
  | close g => exact descends_close c g
  | complete n code => exact descends_complete c n code
  | childFinished g code => exact descends_childFinished c g code
  | countDown => exact descends_of_width Nat.one_pos (Nat.le_refl _)
  | launch n => exact descends_launch c n
  | pause n outcome =>
    exact descends_of_width Nat.one_pos (Nat.le_of_eq (news_pause c n outcome))

/-! ## Settling -/

/-- The measure of an agenda and a state: the news ahead, the deliveries under way, the width. -/
def measure (calls : List Call) (c : Coordinator) : Nat × Nat × Nat :=
  (c.news + total Call.news calls, total Call.deliveries calls, total Call.width calls)

/-- What takes the measure of a call down takes that of the whole agenda down. -/
theorem Descends.measure_lt {c : Coordinator} {call : Call} {result : List Call × Coordinator}
    (descends : Descends c call result) (rest : List Call) :
    Prod.Lex (· < ·) (Prod.Lex (· < ·) (· < ·)) (measure (result.1 ++ rest) result.2)
      (measure (call :: rest) c) := by
  simp only [measure, total_append, total_cons]
  rcases descends with h | ⟨h, k | ⟨k, m⟩⟩
  · exact Prod.Lex.left _ _ (by omega)
  · rcases Nat.lt_or_eq_of_le h with h | h
    · exact Prod.Lex.left _ _ (by omega)
    · rw [show result.2.news + (total Call.news result.1 + total Call.news rest) =
          c.news + (call.news + total Call.news rest) by omega]
      exact Prod.Lex.right _ (Prod.Lex.left _ _ (by omega))
  · rcases Nat.lt_or_eq_of_le h with h | h
    · exact Prod.Lex.left _ _ (by omega)
    · rw [show result.2.news + (total Call.news result.1 + total Call.news rest) =
          c.news + (call.news + total Call.news rest) by omega]
      refine Prod.Lex.right _ ?_
      rcases Nat.lt_or_eq_of_le k with k | k
      · exact Prod.Lex.left _ _ (by omega)
      · rw [k]
        exact Prod.Lex.right _ (by omega)

/-- **Settles** an agenda: carries out its calls in order, each with all that follows from it before
the next one. -/
def settle : List Call → Coordinator → Coordinator
  | [], c => c
  | call :: rest, c =>
    let result := c.perform call
    settle (result.1 ++ rest) result.2
termination_by calls c => measure calls c
decreasing_by exact (perform_descends c call).measure_lt rest

@[simp] theorem settle_nil (c : Coordinator) : settle [] c = c := by
  unfold settle; rfl

theorem settle_cons (call : Call) (rest : List Call) (c : Coordinator) :
    settle (call :: rest) c = settle ((c.perform call).1 ++ rest) (c.perform call).2 := by
  rw [settle]

end Coordinator

end StepFlow
