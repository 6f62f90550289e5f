import Covenant.Proofs.Bridge.Session
import Covenant.Proofs.Bridge.Transparency

namespace Covenant

variable {σ : Type}

theorem Backend.run_append (backend : Backend σ) (fs : List Formula) (f : Formula) (s : σ) :
    backend.run (fs ++ [f]) s =
      ((backend.run fs s).1 ++ [(backend f (backend.run fs s).2).1.answer],
        (backend f (backend.run fs s).2).2) := by
  induction fs generalizing s with
  | nil => rfl
  | cons g rest ih => simp only [List.cons_append, Backend.run, ih]

namespace Session

-- What a log tells

def Event.asked? : Event → Option Nat
  | .asked id _ => some id
  | _ => none

def Event.sent? : Event → Option Nat
  | .sent id _ => some id
  | _ => none

def Event.run? : Event → Option (Nat × Formula × Answer)
  | .ran id f answer => some (id, f, answer)
  | _ => none

-- What a query leaves open, request by request.
def Event.settle (outstanding : List Nat) : Event → List Nat
  | .sent id _ => outstanding ++ [id]
  | .answered id _ _ | .gaveUp id _ _ => outstanding.erase id
  | _ => outstanding

def askedIds (log : List Event) : List Nat := log.filterMap Event.asked?

def sentIds (log : List Event) : List Nat := log.filterMap Event.sent?

-- The runs of the solver: number, formula and answer.
def runs (log : List Event) : List (Nat × Formula × Answer) := log.filterMap Event.run?

-- What the client says to a query in the end.
def Event.conclusion? : Event → Option (Formula × Answer)
  | .answered _ f answer | .refused f answer => some (f, answer)
  | .gaveUp _ f reason => some (f, .error (.unavailable reason))
  | _ => none

def conclusions (log : List Event) : List (Formula × Answer) := log.filterMap Event.conclusion?

-- The requests that are sent, and neither answered nor given up.
def outstanding (log : List Event) : List Nat := log.foldl Event.settle []

-- The solver was run on the formula for the request, and the answer is what it gave, or says that
-- this does not fit.
def Genuine (log : List Event) (id : Nat) (f : Formula) (answer : Answer) : Prop :=
  ∃ result, .ran id f result ∈ log ∧
    (answer = result ∨ ∃ free, answer = Worker.tooLong (Response.encode ⟨id, result⟩).length free ∧
      (Segment.lengthLimit ≤ (Response.encode ⟨id, result⟩).length ∨
        free < (Response.encode ⟨id, result⟩).length))

variable {log : List Event} {e : Event} {id nextId : Nat} {f : Formula} {answer : Answer}

theorem askedIds_append (log : List Event) (e : Event) :
    askedIds (log ++ [e]) = askedIds log ++ e.asked?.toList := by
  cases h : e.asked? <;> simp [askedIds, h]

theorem sentIds_append (log : List Event) (e : Event) :
    sentIds (log ++ [e]) = sentIds log ++ e.sent?.toList := by
  cases h : e.sent? <;> simp [sentIds, h]

theorem runs_append (log : List Event) (e : Event) : runs (log ++ [e]) = runs log ++ e.run?.toList := by
  cases h : e.run? <;> simp [runs, h]

theorem runs_append_of_none (h : e.run? = none) : runs (log ++ [e]) = runs log := by
  rw [runs_append, h, Option.toList_none, List.append_nil]

theorem conclusions_append (log : List Event) (e : Event) :
    conclusions (log ++ [e]) = conclusions log ++ e.conclusion?.toList := by
  cases h : e.conclusion? <;> simp [conclusions, h]

theorem outstanding_append (log : List Event) (e : Event) :
    outstanding (log ++ [e]) = e.settle (outstanding log) := by
  rw [outstanding, List.foldl_append]
  rfl

theorem mem_runs : (id, f, answer) ∈ runs log ↔ .ran id f answer ∈ log := by
  rw [runs, List.mem_filterMap]
  constructor
  · rintro ⟨e, he, hrun⟩
    cases e <;> cases hrun
    exact he
  · intro h
    exact ⟨_, h, rfl⟩

theorem mem_sentIds : id ∈ sentIds log ↔ ∃ f, .sent id f ∈ log := by
  rw [sentIds, List.mem_filterMap]
  constructor
  · rintro ⟨e, he, hsent⟩
    cases e <;> cases hsent
    exact ⟨_, he⟩
  · rintro ⟨f, h⟩
    exact ⟨_, h, rfl⟩

theorem Genuine.append (h : Genuine log id f answer) (e : Event) : Genuine (log ++ [e]) id f answer := by
  obtain ⟨result, hran, hanswer⟩ := h
  exact ⟨result, List.mem_append_left _ hran, hanswer⟩

-- Numbers

-- What a client in that stage has asked, sent and left open.
def Tallied (nextId : Nat) (log : List Event) : Client.Stage → Prop
  | .ready | .leaving | .gone => outstanding log = []
  | .cleared id f =>
      outstanding log = [] ∧ id < nextId ∧ .asked id f ∈ log ∧ ∀ k ∈ sentIds log, k < id
  | .waiting id _ => outstanding log = [id]
  | .failing id _ _ | .closing id _ _ => outstanding log = [] ∨ outstanding log = [id]

-- Each number is above those before it, and requests go out in the order of their numbers.
structure Numbered (stage : Client.Stage) (nextId : Nat) (log : List Event) : Prop where
  asked : (askedIds log).Pairwise (· < ·)
  askedBelow : ∀ id ∈ askedIds log, id < nextId
  sent : (sentIds log).Pairwise (· < ·)
  sentBelow : ∀ id ∈ sentIds log, id < nextId
  sentAsked : ∀ before id f, before ++ [.sent id f] <+: log → .asked id f ∈ before
  tallied : Tallied nextId log stage

variable {stage : Client.Stage}

-- A run of the solver changes nothing for the client.
theorem Tallied.ran (h : Tallied nextId log stage) :
    Tallied nextId (log ++ [.ran id f answer]) stage := by
  have hopen : outstanding (log ++ [.ran id f answer]) = outstanding log := outstanding_append _ _
  have hsent : sentIds (log ++ [.ran id f answer]) = sentIds log := by
    rw [sentIds_append]
    exact List.append_nil _
  cases stage with
  | cleared k g =>
      obtain ⟨h₁, h₂, h₃, h₄⟩ := h
      exact ⟨hopen ▸ h₁, h₂, List.mem_append_left _ h₃, hsent ▸ h₄⟩
  | ready => exact hopen.trans h
  | leaving => exact hopen.trans h
  | gone => exact hopen.trans h
  | waiting => exact hopen.trans h
  | failing => exact Or.imp hopen.trans hopen.trans h
  | closing => exact Or.imp hopen.trans hopen.trans h

-- What ends in another event than the last one was in the log before it.
theorem prefix_append_of_ne {x : Event} (hne : x ≠ e) {before : List Event} :
    before ++ [x] <+: log ++ [e] ↔ before ++ [x] <+: log := by
  rw [List.prefix_concat_iff]
  constructor
  · rintro (heq | h)
    · have hlast := (List.append_inj' heq rfl).2
      exact absurd (List.singleton_inj.mp hlast) hne
    · exact h
  · exact .inr

namespace Numbered

theorem stay (h : Numbered stage nextId log) {stage' : Client.Stage}
    (htallied : Tallied nextId log stage') : Numbered stage' nextId log :=
  ⟨h.asked, h.askedBelow, h.sent, h.sentBelow, h.sentAsked, htallied⟩

-- An event in which no number is given or sent.
theorem append (h : Numbered stage nextId log) (hasked : e.asked? = none) (hsent : e.sent? = none)
    {stage' : Client.Stage} (htallied : Tallied nextId (log ++ [e]) stage') :
    Numbered stage' nextId (log ++ [e]) := by
  have haskedIds : askedIds (log ++ [e]) = askedIds log := by
    rw [askedIds_append, hasked, Option.toList_none, List.append_nil]
  have hsentIds : sentIds (log ++ [e]) = sentIds log := by
    rw [sentIds_append, hsent, Option.toList_none, List.append_nil]
  refine ⟨haskedIds ▸ h.asked, haskedIds ▸ h.askedBelow, hsentIds ▸ h.sent,
    hsentIds ▸ h.sentBelow, fun before id f hbefore => ?_, htallied⟩
  have hne : Event.sent id f ≠ e := by
    rintro rfl
    cases hsent
  exact h.sentAsked before id f ((prefix_append_of_ne hne).mp hbefore)

theorem ask (h : Numbered .ready nextId log) (f : Formula) {stage : Client.Stage}
    (htallied : Tallied (nextId + 1) (log ++ [.asked nextId f]) stage) :
    Numbered stage (nextId + 1) (log ++ [.asked nextId f]) := by
  have haskedIds : askedIds (log ++ [.asked nextId f]) = askedIds log ++ [nextId] :=
    askedIds_append _ _
  have hsentIds : sentIds (log ++ [.asked nextId f]) = sentIds log := by
    rw [sentIds_append]
    exact List.append_nil _
  refine ⟨?_, ?_, hsentIds ▸ h.sent, ?_, fun before id g hbefore => ?_, htallied⟩
  · rw [haskedIds, List.pairwise_append]
    exact ⟨h.asked, List.pairwise_singleton _ _, by simpa using h.askedBelow⟩
  · rw [haskedIds]
    intro id hid
    rcases List.mem_append.mp hid with hold | hnew
    · exact Nat.lt_succ_of_lt (h.askedBelow id hold)
    · obtain rfl := List.mem_singleton.mp hnew
      exact Nat.lt_succ_self _
  · rw [hsentIds]
    exact fun id hid => Nat.lt_succ_of_lt (h.sentBelow id hid)
  · exact h.sentAsked before id g ((prefix_append_of_ne (by simp)).mp hbefore)

theorem send (h : Numbered (.cleared id f) nextId log) :
    Numbered (.waiting id f) nextId (log ++ [.sent id f]) := by
  obtain ⟨houtstanding, hid, hasked, hbelow⟩ := h.tallied
  have haskedIds : askedIds (log ++ [.sent id f]) = askedIds log := by
    rw [askedIds_append]
    exact List.append_nil _
  have hsentIds : sentIds (log ++ [.sent id f]) = sentIds log ++ [id] := sentIds_append _ _
  refine ⟨haskedIds ▸ h.asked, haskedIds ▸ h.askedBelow, ?_, ?_, fun before k g hbefore => ?_, ?_⟩
  · rw [hsentIds, List.pairwise_append]
    exact ⟨h.sent, List.pairwise_singleton _ _, by simpa using hbelow⟩
  · rw [hsentIds]
    intro k hk
    rcases List.mem_append.mp hk with hold | hnew
    · exact h.sentBelow k hold
    · rwa [List.mem_singleton.mp hnew]
  · rcases List.prefix_concat_iff.mp hbefore with heq | hold
    · obtain ⟨rfl, hlast⟩ := List.append_inj' heq rfl
      cases hlast
      exact hasked
    · exact h.sentAsked before k g hold
  · rw [Tallied, outstanding_append, houtstanding]
    rfl

end Numbered

-- Runs of the solver

-- The solver was run on requests that were sent, on each once and one after the other, and what a
-- query was answered with comes from its own run.
structure Faithful (backend : Backend σ) (start : σ) (log : List Event) (state : σ) : Prop where
  sentFirst : ∀ before id f answer, before ++ [.ran id f answer] <+: log → .sent id f ∈ before
  once : ((runs log).map (·.1)).Nodup
  solved : backend.run ((runs log).map (·.2.1)) start = ((runs log).map (·.2.2), state)
  genuine : ∀ before id f answer, before ++ [.answered id f answer] <+: log →
    Genuine before id f answer

namespace Faithful

variable {backend : Backend σ} {start state : σ}

-- An event that is neither a run nor an answer.
theorem append (h : Faithful backend start log state) (hrun : e.run? = none)
    (hanswered : ∀ id f answer, Event.answered id f answer ≠ e) :
    Faithful backend start (log ++ [e]) state := by
  refine ⟨fun before id f answer hbefore => ?_, ?_, ?_, fun before id f answer hbefore => ?_⟩
  · have hne : Event.ran id f answer ≠ e := by
      rintro rfl
      cases hrun
    exact h.sentFirst before id f answer ((prefix_append_of_ne hne).mp hbefore)
  · rw [runs_append_of_none hrun]
    exact h.once
  · rw [runs_append_of_none hrun]
    exact h.solved
  · exact h.genuine before id f answer ((prefix_append_of_ne (hanswered id f answer)).mp hbefore)

theorem conclude (h : Faithful backend start log state) (hgenuine : Genuine log id f answer) :
    Faithful backend start (log ++ [.answered id f answer]) state := by
  refine ⟨fun before k g a hbefore => ?_, ?_, ?_, fun before k g a hbefore => ?_⟩
  · exact h.sentFirst before k g a ((prefix_append_of_ne (by simp)).mp hbefore)
  · rw [runs_append_of_none rfl]
    exact h.once
  · rw [runs_append_of_none rfl]
    exact h.solved
  · rcases List.prefix_concat_iff.mp hbefore with heq | hold
    · obtain ⟨rfl, hlast⟩ := List.append_inj' heq rfl
      cases hlast
      exact hgenuine
    · exact h.genuine before k g a hold

-- A request that was sent and on which the solver was not run yet.
theorem solve (h : Faithful backend start log state) (hsent : .sent id f ∈ log)
    (hnew : id ∉ (runs log).map (·.1)) :
    Faithful backend start (log ++ [.ran id f (backend f state).1.answer]) (backend f state).2 := by
  have hruns : runs (log ++ [.ran id f (backend f state).1.answer]) =
      runs log ++ [(id, f, (backend f state).1.answer)] := runs_append _ _
  refine ⟨fun before k g a hbefore => ?_, ?_, ?_, fun before k g a hbefore => ?_⟩
  · rcases List.prefix_concat_iff.mp hbefore with heq | hold
    · obtain ⟨rfl, hlast⟩ := List.append_inj' heq rfl
      cases hlast
      exact hsent
    · exact h.sentFirst before k g a hold
  · rw [hruns, List.map_append, List.nodup_append]
    refine ⟨h.once, List.nodup_singleton _, fun k hk j hj => ?_⟩
    have hid : j = id := by simpa using hj
    rintro rfl
    exact hnew (hid ▸ hk)
  · rw [hruns, List.map_append, List.map_append, List.map_singleton, List.map_singleton,
      Backend.run_append, h.solved]
  · exact h.genuine before k g a ((prefix_append_of_ne (by simp)).mp hbefore)

-- A run is for a request that was sent.
theorem mem_sentIds_of_run (h : Faithful backend start log state) (hid : id ∈ (runs log).map (·.1)) :
    id ∈ sentIds log := by
  obtain ⟨⟨k, f, a⟩, hrun, rfl⟩ := List.mem_map.mp hid
  obtain ⟨before, after, rfl⟩ := List.append_of_mem (mem_runs.mp hrun)
  have hsent := h.sentFirst before k f a ⟨after, by simp⟩
  exact mem_sentIds.mpr ⟨f, List.mem_append_left _ hsent⟩

end Faithful

end Session

end Covenant
