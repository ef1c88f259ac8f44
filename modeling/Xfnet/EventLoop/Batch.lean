import Xfnet.EventLoop.Dispatch

/-!
# One batch of events

What `Selector::Select` does with the events that one `epoll_wait` reported, whatever their bits:
it calls the methods of each handler in the order read, write, error, and leaves the handler at the
first one that returns `false`. It looks at the pointers again and again, so it depends on its
handlers: a method may unregister its own handler, and has to return `false` then. Under this
contract each call is made on a handler that `m_handlers` still owns, and no handler of the batch
goes short: the thread does not leave the batch before each of them is done (`batch_discipline`).
-/

namespace Xfnet.EventLoop

open Transition

/-- The methods that `Select` comes to before, for the same event. -/
def Method.before : Method → List Method
  | read => []
  | write => [read]
  | error => [read, write]

/-- The methods an event is reported to. -/
def reported (events : ℕ) : List Method := [Method.read, .write, .error].filter (reports events)

/-- A batch: the loop, the reported events, the calls that have returned with their results, and
whether the handler whose method runs was unregistered by it. -/
structure Batch (T H Fd : Type*) where
  dispatch : Dispatch T H Fd
  events : List (H × ℕ)
  returned : List (H × Method × Bool)
  gone : Bool

variable {T H Fd : Type*}

namespace Batch

def record [DecidableEq H] (s : Batch T H Fd) (l : Move T H Fd) (d : Dispatch T H Fd) :
    Batch T H Fd where
  dispatch := d
  events := s.events
  returned :=
    match l, s.dispatch.select with
    | .returned result, .inside m h _ _ => s.returned ++ [(h, m, result)]
    | _, _ => s.returned
  gone :=
    match l, s.dispatch.select with
    | .call, _ => false
    | .registry (.unregister _ h), .inside _ own _ _ => s.gone || h = own
    | _, _ => s.gone

variable [DecidableEq H]

/-- The results of the methods of `h`, in the order of the calls. -/
def results (s : Batch T H Fd) (h : H) : List (Method × Bool) :=
  (s.returned.filter fun c => c.1 = h).map Prod.snd

/-- The calls on `h`, with the results of those that have returned. -/
def calls (s : Batch T H Fd) (h : H) : List (Method × Option Bool) :=
  (s.results h).map (fun c => (c.1, some c.2)) ++
    match s.dispatch.select with
    | .inside m own _ _ => if own = h then [(m, none)] else []
    | _ => []

end Batch

/-- The loop thread in a batch of events of different handlers in `m_handlers`, in any state of the
registry, until it is back at the test of `m_state`. -/
def batch (H Fd : Type*) [DecidableEq T] [Fintype T] [DecidableEq H] [DecidableEq Fd] (loop : T) :
    System (Batch T H Fd) (Move T H Fd) where
  init s :=
    (s.events.map Prod.fst).Nodup ∧ (∀ e ∈ s.events, e.1 ∈ s.dispatch.reg.handlers) ∧
      s.dispatch.select = .entry s.events ∧ s.returned = []
  next
    | _, .test => none
    | _, .wait _ => none
    | s, l => (s.dispatch.next loop l).map (s.record l)

/-- The contract of the handlers: a method unregisters no handler but its own, and `HandleRead` and
`HandleWrite` return `false` then. Nobody else unregisters a handler in the batch. -/
def Contract (loop : T) (s : Batch T H Fd) : Move T H Fd → Prop
  | .registry (.unregister t h) =>
    match s.dispatch.select with
    | .testing .. => False
    | .inside _ own _ _ => t = loop ∧ h = own
    | _ => True
  | .returned true =>
    match s.dispatch.select with
    | .inside .read _ _ _ => s.gone = false
    | .inside .write _ _ _ => s.gone = false
    | _ => True
  | _ => True

/-! ## Visits -/

/-- All methods that were reported have returned, or one has returned `false`. -/
structure Done (events : ℕ) (results : List (Method × Bool)) : Prop where
  order : results.map Prod.fst <+: reported events
  stops : ∀ c ∈ results.dropLast, c.2 = true
  whole : results.map Prod.fst = reported events ∨ ∃ m, (m, false) ∈ results

/-- What the methods before `m` have returned when `Select` comes to `m`. -/
def answered (m : Method) (events : ℕ) : List (Method × Bool) :=
  (m.before.filter (reports events)).map fun m => (m, true)

section Visits

variable {m : Method} {events : ℕ} {result : Bool}

theorem before_append (m : Method) : m.before ++ m :: m.after = [.read, .write, .error] := by
  cases m <;> rfl

theorem reported_eq (m : Method) (events : ℕ) :
    reported events =
      (answered m events).map Prod.fst ++ (m :: m.after).filter (reports events) := by
  have hmap : (answered m events).map Prod.fst = m.before.filter (reports events) := by
    simp [answered, Function.comp_def]
  rw [hmap, ← List.filter_append, before_append, reported]

theorem snd_of_mem_answered {c : Method × Bool} (h : c ∈ answered m events) : c.2 = true := by
  obtain ⟨m', -, rfl⟩ := List.mem_map.mp h
  rfl

/-- A method returns. -/
theorem done_of_answered (hrep : reports events m = true) (hlast : result = false ∨ m = .error) :
    Done events (answered m events ++ [(m, result)]) := by
  have hreported := reported_eq m events
  rw [List.filter_cons_of_pos hrep] at hreported
  refine ⟨?_, fun c hc => ?_, ?_⟩
  · rw [hreported, List.map_append, List.prefix_append_right_inj]
    exact ⟨_, rfl⟩
  · rw [List.dropLast_concat] at hc
    exact snd_of_mem_answered hc
  · rcases hlast with rfl | rfl
    · exact .inr ⟨m, by simp⟩
    · exact .inl (by rw [hreported, List.map_append]; rfl)

/-- The last method is not reported. -/
theorem done_of_skip (hrep : reports events .error = false) :
    Done events (answered .error events) := by
  have hreported := reported_eq .error events
  rw [List.filter_cons_of_neg (by simp [hrep])] at hreported
  refine ⟨?_, fun c hc => snd_of_mem_answered (List.mem_of_mem_dropLast hc), .inl ?_⟩ <;>
    rw [hreported] <;> simp [Method.after]

end Visits

/-! ## The place in the batch -/

section Places

variable (batch : List (H × ℕ)) (results : H → List (Method × Bool)) (handlers : Finset H)

/-- The loop thread has come to `m` for the event at hand: the handlers before are done, those
behind are still to come and in `m_handlers`. -/
structure Visiting (m : Method) (h : H) (events : ℕ) (rest : List (H × ℕ)) : Prop where
  served : ∃ done, batch = done ++ (h, events) :: rest ∧ ∀ e ∈ done, Done e.2 (results e.1)
  current : results h = answered m events
  untouched : ∀ e ∈ rest, results e.1 = []
  owned : ∀ e ∈ rest, e.1 ∈ handlers

/-- The place of the loop thread. The handler at hand is in `m_handlers`, until its method
unregisters it. -/
def Place (gone : Bool) : Select H → Prop
  | .testing m h events rest => Visiting batch results handlers m h events rest ∧ h ∈ handlers
  | .inside m h events rest =>
    Visiting batch results handlers m h events rest ∧ reports events m = true ∧
      (gone = false → h ∈ handlers)
  | .top => ∀ e ∈ batch, Done e.2 (results e.1)
  | _ => False

variable {batch results handlers} {m : Method} {h : H} {events : ℕ} {done rest : List (H × ℕ)}
  {gone : Bool}

/-- The next round of the `for` loop. -/
theorem place_entry (hbatch : batch = done ++ rest) (hdone : ∀ e ∈ done, Done e.2 (results e.1))
    (huntouched : ∀ e ∈ rest, results e.1 = []) (howned : ∀ e ∈ rest, e.1 ∈ handlers) :
    Place batch results handlers gone (.entry rest) := by
  cases rest with
  | nil => exact fun e he => hdone e (by simpa [hbatch] using he)
  | cons e rest =>
    obtain ⟨hfirst, huntouched⟩ := List.forall_mem_cons.mp huntouched
    obtain ⟨hown, howned⟩ := List.forall_mem_cons.mp howned
    exact ⟨⟨⟨done, hbatch, hdone⟩, hfirst, huntouched, howned⟩, hown⟩

theorem apart_of_nodup (hnodup : ((done ++ (h, events) :: rest).map Prod.fst).Nodup) :
    (∀ e ∈ done, e.1 ≠ h) ∧ ∀ e ∈ rest, e.1 ≠ h := by
  rw [List.map_append, List.map_cons, List.nodup_append, List.nodup_cons] at hnodup
  obtain ⟨-, ⟨hrest, -⟩, hapart⟩ := hnodup
  refine ⟨fun e he => hapart e.1 (List.mem_map_of_mem he) h List.mem_cons_self, ?_⟩
  rintro e he rfl
  exact hrest (List.mem_map.mpr ⟨e, he, rfl⟩)

theorem Visiting.mem (hv : Visiting batch results handlers m h events rest) :
    h ∈ batch.map Prod.fst := by
  obtain ⟨done, rfl, -⟩ := hv.served
  simp

/-- The handlers before and behind the one at hand are not touched by its calls. -/
theorem Visiting.others (hv : Visiting batch results handlers m h events rest)
    {results' : H → List (Method × Bool)} (hsame : ∀ h', h' ≠ h → results' h' = results h')
    (hnodup : (batch.map Prod.fst).Nodup) :
    (∃ done, batch = done ++ (h, events) :: rest ∧ ∀ e ∈ done, Done e.2 (results' e.1)) ∧
      ∀ e ∈ rest, results' e.1 = [] := by
  obtain ⟨done, rfl, hbefore⟩ := hv.served
  obtain ⟨hapart, hrest⟩ := apart_of_nodup hnodup
  refine ⟨⟨done, rfl, fun e he => ?_⟩, fun e he => ?_⟩
  · rw [hsame e.1 (hapart e he)]
    exact hbefore e he
  · rw [hsame e.1 (hrest e he)]
    exact hv.untouched e he

/-- The handler at hand is done. -/
theorem Visiting.leave (hv : Visiting batch results handlers m h events rest)
    {results' : H → List (Method × Bool)} (hsame : ∀ h', h' ≠ h → results' h' = results h')
    (hnodup : (batch.map Prod.fst).Nodup) (hdone : Done events (results' h)) :
    Place batch results' handlers gone (.entry rest) := by
  obtain ⟨⟨done, hbatch, hbefore⟩, huntouched⟩ := hv.others hsame hnodup
  have hall : ∀ e ∈ done ++ [(h, events)], Done e.2 (results' e.1) := by
    intro e he
    rcases List.mem_append.mp he with he | he
    · exact hbefore e he
    · rw [List.mem_singleton.mp he]
      exact hdone
  exact place_entry (hbatch.trans (List.append_cons done (h, events) rest)) hall huntouched hv.owned

/-- The handler at hand stays so. -/
theorem Visiting.next (hv : Visiting batch results handlers m h events rest)
    {results' : H → List (Method × Bool)} (hsame : ∀ h', h' ≠ h → results' h' = results h')
    (hnodup : (batch.map Prod.fst).Nodup) {m' : Method}
    (hcurrent : results' h = answered m' events) :
    Visiting batch results' handlers m' h events rest :=
  ⟨(hv.others hsame hnodup).1, hcurrent, (hv.others hsame hnodup).2, hv.owned⟩

/-- The next method of the same handler, or the next handler. -/
theorem Visiting.proceed (hv : Visiting batch results handlers m h events rest)
    (hown : m = .error ∨ h ∈ handlers) {results' : H → List (Method × Bool)}
    (hsame : ∀ h', h' ≠ h → results' h' = results h') (hnodup : (batch.map Prod.fst).Nodup)
    (hcurrent : results' h = answered m events ++ if reports events m then [(m, true)] else []) :
    Place batch results' handlers gone (.proceed m h events rest) := by
  cases m with
  | error =>
    refine hv.leave hsame hnodup ?_
    rw [hcurrent]
    split
    · next hrep => exact done_of_answered hrep (.inr rfl)
    · next hrep => simpa using done_of_skip (Bool.eq_false_of_not_eq_true hrep)
  | read =>
    refine ⟨hv.next hsame hnodup ?_, hown.resolve_left nofun⟩
    rw [hcurrent]
    by_cases hrep : reports events .read = true <;> simp [answered, Method.before, hrep]
  | write =>
    refine ⟨hv.next hsame hnodup ?_, hown.resolve_left nofun⟩
    rw [hcurrent]
    by_cases hrep : reports events .write = true <;>
      simp [answered, Method.before, List.filter_cons, hrep]
    split <;> rfl

/-- Handlers may be added. -/
theorem Place.mono {handlers' : Finset H} {c : Select H}
    (hp : Place batch results handlers gone c) (hsub : ∀ h ∈ handlers, h ∈ handlers') :
    Place batch results handlers' gone c := by
  have hvisit : ∀ m h events rest, Visiting batch results handlers m h events rest →
      Visiting batch results handlers' m h events rest := fun m h events rest hv =>
    ⟨hv.served, hv.current, hv.untouched, fun e he => hsub e.1 (hv.owned e he)⟩
  match c with
  | .testing m h events rest => exact ⟨hvisit m h events rest hp.1, hsub h hp.2⟩
  | .inside m h events rest =>
    exact ⟨hvisit m h events rest hp.1, hp.2.1, fun hgone => hsub h (hp.2.2 hgone)⟩
  | .top => exact hp
  | .ended => exact hp.elim
  | .waiting => exact hp.elim

/-- A method unregisters its handler. -/
theorem Place.unregister {handlers' : Finset H}
    (hp : Place batch results handlers gone (.inside m h events rest))
    (hnodup : (batch.map Prod.fst).Nodup) (hsub : ∀ h' ∈ handlers, h' ≠ h → h' ∈ handlers') :
    Place batch results handlers' true (.inside m h events rest) := by
  obtain ⟨⟨⟨done, rfl, hbefore⟩, hcurrent, huntouched, howned⟩, hrep, -⟩ := hp
  have hrest := (apart_of_nodup hnodup).2
  exact ⟨⟨⟨done, rfl, hbefore⟩, hcurrent, huntouched,
    fun e he => hsub e.1 (howned e he) (hrest e he)⟩, hrep, nofun⟩

end Places

section Results

variable [DecidableEq H] {s : Batch T H Fd} {d : Dispatch T H Fd} {m : Method} {h h' : H}
  {events : ℕ} {rest : List (H × ℕ)} {result : Bool}

theorem results_returned (hc : s.dispatch.select = .inside m h events rest) :
    (s.record (.returned result) d).results h = s.results h ++ [(m, result)] := by
  simp [Batch.results, Batch.record, hc, List.filter_append]

theorem results_returned_of_ne (hc : s.dispatch.select = .inside m h events rest) (hne : h' ≠ h) :
    (s.record (.returned result) d).results h' = s.results h' := by
  simp [Batch.results, Batch.record, hc, List.filter_append, hne.symm]

/-- What holds throughout a batch. -/
structure Batch.Ok (s : Batch T H Fd) : Prop where
  nodup : (s.events.map Prod.fst).Nodup
  outside : ∀ h ∉ s.events.map Prod.fst, s.results h = []
  place : Place s.events s.results s.dispatch.reg.handlers s.gone s.dispatch.select

/-- A method of the batch returns. -/
theorem Batch.Ok.outside_returned (hok : s.Ok) (hc : s.dispatch.select = .inside m h events rest)
    (hmem : h ∈ s.events.map Prod.fst) :
    ∀ h' ∉ s.events.map Prod.fst, (s.record (.returned result) d).results h' = [] := by
  intro h' hm
  have hne : h' ≠ h := by
    rintro rfl
    exact hm hmem
  rw [results_returned_of_ne hc hne]
  exact hok.outside h' hm

end Results

/-! ## Runs -/

section Runs

variable [DecidableEq T] [Fintype T] [DecidableEq H] [DecidableEq Fd] {loop : T}
  {s s' : Batch T H Fd} {h : H}

/-- Only `Unregister` takes a handler out of `m_handlers`. -/
theorem mem_handlers_of_step {r r' : Registry T H Fd} {l : Label T H Fd} (hstep : Step r l r')
    (hl : ∀ t, l ≠ .unregister t h) (hm : h ∈ r.handlers) : h ∈ r'.handlers := by
  cases hstep with
  | insert hcall husers hnew => exact Finset.mem_insert_of_mem hm
  | @erase t h₀ hcall hin =>
    refine Finset.mem_erase.mpr ⟨?_, hm⟩
    rintro rfl
    exact hl t rfl
  | delete hcall hfd hepoll =>
    rw [handlers_drop]
    exact hm
  | release husers hcall =>
    rw [handlers_drop]
    exact hm
  | _ => exact hm

theorem batch_next {l : Move T H Fd} (hn : (batch H Fd loop).next s l = some s') :
    (l ≠ .test ∧ ∀ b, l ≠ .wait b) ∧ ∃ d, s.dispatch.next loop l = some d ∧ s' = s.record l d := by
  have hmap (hn : (s.dispatch.next loop l).map (s.record l) = some s') :
      ∃ d, s.dispatch.next loop l = some d ∧ s' = s.record l d := by
    obtain ⟨d, hd, rfl⟩ := Option.map_eq_some_iff.mp hn
    exact ⟨d, hd, rfl⟩
  cases l with
  | test => cases hn
  | wait b => cases hn
  | _ => exact ⟨⟨nofun, nofun⟩, hmap hn⟩

theorem Batch.ok_init (hi : (batch H Fd loop).init s) : s.Ok := by
  obtain ⟨hnodup, howned, hselect, hreturned⟩ := hi
  have hnone : ∀ h, s.results h = [] := fun h => by simp [Batch.results, hreturned]
  refine ⟨hnodup, fun h _ => hnone h, ?_⟩
  rw [hselect]
  exact place_entry (List.nil_append s.events).symm nofun (fun e _ => hnone e.1) howned

/-- A step of the registry. -/
theorem Batch.Ok.registry {l : Label T H Fd} {reg : Registry T H Fd} (hok : s.Ok)
    (hcontract : Contract loop s (.registry l)) (hpermits : s.dispatch.Permits loop l = true)
    (hreg : s.dispatch.reg.next l = some reg) :
    (s.record (.registry l) (s.dispatch.advance l reg)).Ok := by
  have hkeep := fun h => mem_handlers_of_step (h := h) (step_of_next hreg)
  have hplace := hok.place
  refine ⟨hok.nodup, hok.outside, ?_⟩
  cases l with
  | start t ok =>
    -- the thread runs already
    cases hc : s.dispatch.select with
    | ended => exact (hc ▸ hplace).elim
    | _ => simp [Dispatch.Permits, hc] at hpermits
  | unregister t h =>
    show Place s.events s.results reg.handlers _ s.dispatch.select
    cases hc : s.dispatch.select with
    | testing m own events rest => simp [Contract, hc] at hcontract
    | inside m own events rest =>
      obtain ⟨rfl, rfl⟩ : t = loop ∧ h = own := by simpa [Contract, hc] using hcontract
      have hgone : (s.record (.registry (.unregister t h))
          (s.dispatch.advance (.unregister t h) reg)).gone = true := by
        simp [Batch.record, hc]
      rw [hgone]
      refine Place.unregister (hc ▸ hplace) hok.nodup fun h' hm hne => hkeep h' ?_ hm
      rintro t' heq
      exact hne (by cases heq; rfl)
    | top =>
      have hdone : Place s.events s.results s.dispatch.reg.handlers s.gone .top := hc ▸ hplace
      exact hdone
    | ended => exact (hc ▸ hplace).elim
    | waiting => exact (hc ▸ hplace).elim
  | _ => exact hplace.mono fun h => hkeep h nofun

/-- **One step of a batch.** -/
theorem Batch.ok_step {l : Move T H Fd} (hok : s.Ok) (hcontract : Contract loop s l)
    (hn : (batch H Fd loop).next s l = some s') : s'.Ok := by
  obtain ⟨⟨htest, hwait⟩, d, hd, rfl⟩ := batch_next hn
  have hplace := hok.place
  cases moves_of_next hd with
  | registry hpermits hreg => exact hok.registry hcontract hpermits hreg
  | ended => exact absurd rfl htest
  | again => exact absurd rfl htest
  | wait => exact absurd rfl (hwait _)
  | call hc hrep =>
    rw [hc] at hplace
    exact ⟨hok.nodup, hok.outside, hplace.1, hrep, fun _ => hplace.2⟩
  | @skip m h events rest hc hrep =>
    rw [hc] at hplace
    refine ⟨hok.nodup, hok.outside,
      hplace.1.proceed (.inr hplace.2) (fun _ _ => rfl) hok.nodup ?_⟩
    rw [if_neg (by simp [hrep]), List.append_nil]
    exact hplace.1.current
  | @proceed m h events rest hc hcall =>
    rw [hc] at hplace
    obtain ⟨hv, hrep, hown⟩ := hplace
    refine ⟨hok.nodup, hok.outside_returned hc hv.mem, ?_⟩
    refine hv.proceed ?_ (fun h' => results_returned_of_ne hc) hok.nodup ?_
    · cases m with
      | read => exact .inr (hown (by simpa [Contract, hc] using hcontract))
      | write => exact .inr (hown (by simpa [Contract, hc] using hcontract))
      | error => exact .inl rfl
    · rw [results_returned hc, hv.current, if_pos hrep]
  | @leave m h events rest hc hcall =>
    rw [hc] at hplace
    obtain ⟨hv, hrep, hown⟩ := hplace
    refine ⟨hok.nodup, hok.outside_returned hc hv.mem, ?_⟩
    refine hv.leave (fun h' => results_returned_of_ne hc) hok.nodup ?_
    rw [results_returned hc, hv.current]
    exact done_of_answered hrep (.inl rfl)

theorem Batch.ok_of_reachable (h : (batch H Fd loop).Reachable (Contract loop) s) : s.Ok :=
  h.invariant (fun _ => Batch.ok_init) fun _ _ _ _ hok hcontract hn =>
    Batch.ok_step hok hcontract hn

instance (s : Batch T H Fd) : DecidablePred (Contract loop s) := fun l => by
  unfold Contract
  split
  · split <;> infer_instance
  · split <;> infer_instance
  · infer_instance

end Runs

end Xfnet.EventLoop
