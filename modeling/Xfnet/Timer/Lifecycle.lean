import Xfnet.EventLoop.Registry
import Xfnet.Timer.Shutdown

/-!
# Lifecycle of the timer manager

`Start` and `Stop` as whole calls, one after another. What happens in the queue from a `Start` to
the end of the `Stop` after it is a run of the manager's threads (`Served`), and leaves no null
handler there.

`ThreadGroup::Join` joins the threads and keeps them in `m_threads`. So after a `Stop` that joined
any, `Start` fails its assertion and `Stop` joins them again: the manager works for one `Start` with
work threads (`lifecycle_iff`).
-/

namespace Xfnet.TimerManager

open Monitor Transition BlockingQueue

variable {n : ℕ} {H : Type*}

/-! ## From a `Start` to the end of its `Stop` -/

/-- How a value came into the queue: handlers from the loop thread, null handlers from `Stop`. -/
def arrival (n : ℕ) : Option H → Thread n × Op (Option H) × Ret (Option H)
  | some h => (.loop, .push (some h), .accepted)
  | none => (.main, .push none, .accepted)

/-- The manager right after a `Start` that found `left` in the queue. -/
def Manager.fresh (n : ℕ) (left : List (Option H)) : Manager n H :=
  ⟨⟨⟨left, defaultCapacity⟩, fun _ => .idle, left.map (arrival n)⟩, 0, [], ∅⟩

def managerFrom (n : ℕ) (left : List (Option H)) : System (Manager n H) (Label n H) where
  init s := s = .fresh n left
  next := Manager.next

/-- `Stop` has pushed its null handlers, the work threads have exited, and no thread is in the
middle of an operation: the queue that was `left` at the `Start` is `left'` then. -/
def Served (n : ℕ) (left left' : List (Option H)) : Prop :=
  ∃ s : Manager n H, (managerFrom n left).Reachable Free s ∧ s.posted = n ∧
    s.exited = Finset.univ ∧ (∀ t, s.queue.pc t = .idle) ∧ s.queue.data.queue = left'

/-! ## The calls -/

/-- A manager between two calls: the size of `m_work_threads`, whether its threads can be joined,
`m_state` and the epoll descriptor of `m_loop`, and the queue. -/
structure Lifecycle (H : Type*) where
  threads : ℕ
  joinable : Bool
  loop : EventLoop.RunState
  epoll : Bool
  queue : List (Option H)

/-- How a call can end the program: a failed assertion, a thread joined again, or a negative number
of threads. -/
inductive Fault
  | assertion
  | joined
  | length

inductive Call
  | start (workThreadNum : ℤ)
  | stop

/-- `Start`, where `epoll_create1` and the creation of the threads succeed. -/
def Lifecycle.start (s : Lifecycle H) (workThreadNum : ℤ) : Except Fault (Lifecycle H) :=
  if s.threads ≠ 0 then .error .assertion
  else if s.epoll then .error .assertion
  else if workThreadNum < 0 then .error .length
  else .ok ⟨workThreadNum.toNat, true, .started, true, s.queue⟩

/-- `Stop`. Without threads and with a loop that is not started it does nothing. -/
inductive Lifecycle.Stops (s : Lifecycle H) : Except Fault (Lifecycle H) → Prop
  | nothing : s.threads = 0 → s.loop ≠ .started → s.Stops (.ok s)
  | joined : s.threads ≠ 0 → s.joinable = false → s.Stops (.error .joined)
  | done {left : List (Option H)} : (s.threads ≠ 0 → s.joinable = true) → s.loop = .started →
      Served s.threads s.queue left →
      s.Stops (.ok ⟨s.threads, false, .stopped, false, left⟩)

def Lifecycle.Calls (s : Lifecycle H) : Call → Except Fault (Lifecycle H) → Prop
  | .start workThreadNum, r => s.start workThreadNum = r
  | .stop, r => s.Stops r

/-- A sequence of calls from a constructed manager, up to the first one that ends the program. -/
inductive Runs : List Call → Except Fault (Lifecycle H) → Prop
  | nil : Runs [] (.ok ⟨0, false, .stopped, false, []⟩)
  | call {cs : List Call} {c : Call} {s : Lifecycle H} {r : Except Fault (Lifecycle H)} :
      Runs cs (.ok s) → s.Calls c r → Runs (cs ++ [c]) r
  | ended {cs : List Call} {c : Call} {f : Fault} : Runs cs (.error f) →
      Runs (cs ++ [c]) (.error f)

/-- A `Start` follows the construction or a `Stop`. -/
def WellUsed (cs : List Call) : Prop :=
  ∀ before c workThreadNum after, cs = before ++ c :: .start workThreadNum :: after → c = .stop

/-- The work threads are as many as asked for, the queue has no null handler, and no thread exits
before the next `Stop` begins. -/
structure Serving (workThreadNum : ℤ) (s : Lifecycle H) : Prop where
  threads : (s.threads : ℤ) = workThreadNum
  clean : none ∉ s.queue
  live : ∀ m : Manager s.threads H, (managerFrom s.threads s.queue).Reachable Free m →
    m.posted = 0 → m.exited = ∅

/-- No call ends the program, and after a `Start` the manager serves. -/
def Sound (cs : List Call) (r : Except Fault (Lifecycle H)) : Prop :=
  ∃ s, r = .ok s ∧ ∀ before workThreadNum, cs = before ++ [.start workThreadNum] →
    Serving workThreadNum s

/-- No `Start` asks for a negative number of threads, and after one that asks for some there is only
the `Stop` that ends it. -/
def OnlyOnce (cs : List Call) : Prop :=
  ∀ before workThreadNum after, cs = before ++ .start workThreadNum :: after →
    workThreadNum = 0 ∨ 0 < workThreadNum ∧ (after = [] ∨ after = [.stop])

/-! ## What a run leaves in the queue -/

section Left

variable {q : BlockingQueue.State (Thread n) (Option H)}

/-- A push of the loop thread while nobody waits. -/
theorem push_next (hidle : q.pc = fun _ => .idle) (hfree : q.data.queue.length < q.data.capacity)
    (h : H) : q.next (blockingQueue (Option H)) (.call .loop (.push (some h)) none) =
      some ⟨⟨q.data.queue ++ [some h], q.data.capacity⟩,
        Function.update q.pc .loop (.returned .accepted),
        q.log ++ [(.loop, .push (some h), .accepted)]⟩ := by
  have hbody : body (.push (some h)) q.data =
      .done ⟨q.data.queue ++ [some h], q.data.capacity⟩ .accepted (some .notEmpty) :=
    if_neg (not_le.mpr hfree)
  have hnotify : notifyOne (q.finish .loop (.push (some h)) .accepted).pc .notEmpty none =
      some (q.finish .loop (.push (some h)) .accepted).pc := by
    refine notifyOne_nobody fun t ht => ?_
    by_cases hloop : t = .loop <;> simp [State.finish, hloop, hidle] at ht
  have hcall : q.pc .loop = .idle := congrFun hidle .loop
  simp only [State.next, hcall, State.enter, blockingQueue, hbody, hnotify]
  rfl

theorem leave_next (hidle : q.pc = fun _ => .idle) (d : Content (Option H))
    (log : List (Thread n × Op (Option H) × Ret (Option H))) :
    State.next (blockingQueue (Option H))
      ⟨d, Function.update q.pc .loop (.returned .accepted), log⟩ (.leave .loop) =
        some ⟨d, fun _ => .idle, log⟩ := by
  have hrest : Function.update q.pc .loop .idle = fun _ => .idle := by
    rw [Function.update_eq_self_iff.mpr (congrFun hidle .loop).symm, hidle]
  simp only [State.next, Function.update_self, Function.update_idem, hrest]

/-- The loop thread pushes a handler. -/
theorem reachable_push {s : Manager n H} (hr : (manager n H).Reachable Free s)
    (hidle : s.queue.pc = fun _ => .idle)
    (hfree : s.queue.data.queue.length < s.queue.data.capacity) (h : H) :
    (manager n H).Reachable Free { s with
      queue := ⟨⟨s.queue.data.queue ++ [some h], s.queue.data.capacity⟩, fun _ => .idle,
        s.queue.log ++ [(.loop, .push (some h), .accepted)]⟩ } := by
  have hpush : (manager n H).next s (.queue (.call .loop (.push (some h)) none)) = some _ :=
    next_queue rfl (push_next hidle hfree h)
  set pushed : Manager n H := { s with queue := ⟨⟨s.queue.data.queue ++ [some h],
    s.queue.data.capacity⟩, Function.update s.queue.pc .loop (.returned .accepted),
    s.queue.log ++ [(.loop, .push (some h), .accepted)]⟩ }
  have hleave : (manager n H).next pushed (.queue (.leave .loop)) = some _ :=
    next_queue (s := pushed) rfl (leave_next hidle _ _)
  exact .step (.step hr trivial hpush) trivial hleave

/-- Handlers that were left come from the loop thread. -/
theorem reachable_fresh (left : List H) (hle : left.length ≤ defaultCapacity) :
    (manager n H).Reachable Free (.fresh n (left.map some)) := by
  induction left using List.reverseRecOn with
  | nil => exact .start rfl
  | append_singleton left h ih =>
    rw [List.length_append, List.length_singleton] at hle
    have hfree : (left.map some).length < defaultCapacity := by
      rw [List.length_map]
      omega
    have hpushed := reachable_push (ih (by omega)) rfl hfree h
    simpa [Manager.fresh, arrival] using hpushed

end Left

theorem reachable_of_managerFrom {left : List H} (hle : left.length ≤ defaultCapacity)
    {s : Manager n H} (h : (managerFrom n (left.map some)).Reachable Free s) :
    (manager n H).Reachable Free s := by
  refine System.Reachable.of_init (M := manager n H) (N := managerFrom n (left.map some)) ?_ rfl h
  rintro s rfl
  exact reachable_fresh left hle

/-- Handlers only, as many as the queue takes. -/
def Clean (q : List (Option H)) : Prop := none ∉ q ∧ q.length ≤ defaultCapacity

theorem Clean.exists_map {q : List (Option H)} (h : Clean q) :
    ∃ left : List H, left.length ≤ defaultCapacity ∧ q = left.map some := by
  obtain ⟨hnone, hle⟩ := h
  obtain ⟨left, rfl⟩ : ∃ left : List H, left.map some = q := by
    rw [← Set.mem_range, Set.range_list_map]
    intro v hv
    exact Option.ne_none_iff_exists.mp fun he => hnone (he ▸ hv)
  exact ⟨left, by simpa using hle, rfl⟩

theorem fixedCapacity_of_program {t : Thread n} {op : Op (Option H)} (h : Program t op) :
    FixedCapacity t op := by
  cases t with
  | loop =>
    obtain ⟨h, rfl⟩ := h
    nofun
  | main =>
    obtain rfl : op = .push none := h
    nofun
  | worker i =>
    obtain rfl : op = .pop := h
    nofun

section Reached

variable {left left' : List (Option H)} {s : Manager n H}

/-- **`Stop` leaves a clean queue**. -/
theorem clean_of_served (hclean : Clean left) (h : Served n left left') : Clean left' := by
  obtain ⟨left, hle, rfl⟩ := hclean.exists_map
  obtain ⟨s, hr, -, hexited, -, rfl⟩ := h
  have hreach := reachable_of_managerFrom hle hr
  refine ⟨((shutdown hreach).2.1 hexited).1, ?_⟩
  have hqueue := (refines_queue.reachable hreach).mono (D := Only FixedCapacity) fun _ l hc => by
    cases l with
    | call t op woken => exact fixedCapacity_of_program hc
    | _ => trivial
  exact (bounded_fifo hqueue).2.1

/-- **No work thread exits before `Stop`** pushes its first null handler. -/
theorem live_of_reachable (hclean : Clean left) (hr : (managerFrom n left).Reachable Free s)
    (hposted : s.posted = 0) : s.exited = ∅ := by
  obtain ⟨left, hle, rfl⟩ := hclean.exists_map
  have hreach := reachable_of_managerFrom hle hr
  have hpool : Pool.Ok s.pool := Pool.ok_of_reachable (refines_pool.reachable hreach)
  have hentries : Pool.State.sentinels s.pool.entries = 0 := by
    have hposting : Pool.State.sentinels s.pool.entries + _ ≤ s.posted :=
      (posting_of_reachable hreach).1
    omega
  have hstopped : Counting.count s.pool.Stopped = 0 := by
    have horder := congrArg Pool.State.sentinels hpool.order
    rw [hentries, Pool.State.sentinels, List.countP_append] at horder
    rw [← hpool.stopped, Pool.State.sentinels]
    omega
  rw [Finset.eq_empty_iff_forall_notMem]
  intro i hi
  have := Counting.count_pos (p := s.pool.Stopped) (t := i) (.inl hi)
  omega

end Reached

/-! ## Sequences of calls -/

section Sequences

variable {cs : List Call} {c : Call} {s : Lifecycle H} {r : Except Fault (Lifecycle H)}

theorem onlyOnce_concat : OnlyOnce (cs ++ [c]) ↔ OnlyOnce cs ∧ (∀ m, c = .start m → 0 ≤ m) ∧
    ∀ before m after, cs = before ++ .start m :: after → 0 < m → after = [] ∧ c = .stop := by
  constructor
  · intro h
    have hlonger (before : List Call) (m : ℤ) (after : List Call)
        (hcs : cs = before ++ .start m :: after) : m = 0 ∨ 0 < m ∧ after = [] ∧ c = .stop := by
      have := h before m (after ++ [c]) (by simp [hcs])
      simpa [List.append_eq_singleton_iff] using this
    refine ⟨fun before m after hcs => ?_, fun m hc => ?_, fun before m after hcs hm => ?_⟩
    · exact (hlonger before m after hcs).imp_right fun h => ⟨h.1, .inl h.2.1⟩
    · rcases h cs m [] (by rw [hc]) with hzero | ⟨hpos, -⟩ <;> omega
    · exact ((hlonger before m after hcs).resolve_left (by omega)).2
  · rintro ⟨hcs, hc, hlast⟩ before m after he
    rcases List.eq_nil_or_concat after with rfl | ⟨after, d, rfl⟩
    · have hm := hc m (by simpa using List.append_inj_right' he rfl)
      rcases hm.eq_or_lt with hzero | hpos
      · exact .inl hzero.symm
      · exact .inr ⟨hpos, .inl rfl⟩
    · obtain ⟨hfront, hd⟩ : cs = before ++ .start m :: after ∧ c = d := by
        have he' : cs ++ [c] = (before ++ .start m :: after) ++ [d] := by simpa using he
        simpa using List.append_inj' he' rfl
      rcases hcs before m after hfront with hzero | ⟨hpos, -⟩
      · exact .inl hzero
      · obtain ⟨rfl, hstop⟩ := hlast before m after hfront hpos
        exact .inr ⟨hpos, .inr (by simp [← hd, hstop])⟩

theorem WellUsed.of_concat (h : WellUsed (cs ++ [c])) : WellUsed cs :=
  fun before d m after hcs => h before d m (after ++ [c]) (by simp [hcs])

/-- Where the calls so far leave the manager, if they were right. -/
inductive Stage (cs : List Call) (s : Lifecycle H) : Prop
  | idle : (∀ before m, cs ≠ before ++ [.start m]) → (∀ m, 0 < m → .start m ∉ cs) →
      s.threads = 0 → s.loop ≠ .started → s.epoll = false → Stage cs s
  | started {before : List Call} {m : ℤ} : cs = before ++ [.start m] →
      (∀ k, 0 < k → .start k ∉ before) → 0 ≤ m → s.threads = m.toNat → s.joinable = true →
      s.loop = .started → Stage cs s
  | ended {before : List Call} {m : ℤ} : cs = before ++ [.start m, .stop] → 0 < m →
      s.threads = m.toNat → s.joinable = false → Stage cs s

/-- What the calls so far say about their outcome. -/
def Tracked (cs : List Call) : Except Fault (Lifecycle H) → Prop
  | .ok s => OnlyOnce cs ∧ Clean s.queue ∧ Stage cs s
  | .error _ => ¬OnlyOnce cs

/-- One more `Start`. -/
theorem tracked_start {m : ℤ} (hw : WellUsed (cs ++ [.start m])) (h : Tracked cs (.ok s))
    (hstart : s.start m = r) : Tracked (cs ++ [.start m]) r := by
  obtain ⟨honly, hclean, hstage⟩ := h
  cases hstage with
  | idle hlast hnone hthreads hloop hepoll =>
    have hzero : ¬s.threads ≠ 0 := by simp [hthreads]
    have hclosed : ¬s.epoll = true := by simp [hepoll]
    rw [Lifecycle.start, if_neg hzero, if_neg hclosed] at hstart
    subst hstart
    split
    · next hneg =>
      intro h'
      exact absurd ((onlyOnce_concat.mp h').2.1 m rfl) (not_le.mpr hneg)
    · next hpos =>
      have hm : 0 ≤ m := not_lt.mp hpos
      refine ⟨onlyOnce_concat.mpr ⟨honly, ?_, ?_⟩, hclean, .started rfl hnone hm rfl rfl rfl⟩
      · rintro k hk
        obtain rfl := Call.start.inj hk
        exact hm
      · rintro before k after rfl hk
        exact absurd (by simp) (hnone k hk)
  | @started before k hcs _ _ _ _ _ =>
    -- a `Start` after a `Start`
    have := hw before (.start k) m [] (by simp [hcs])
    cases this
  | @ended before k hcs hk hthreads hjoinable =>
    have hne : s.threads ≠ 0 := by omega
    obtain rfl : .error .assertion = r := by simpa [Lifecycle.start, hne] using hstart
    intro h'
    have := ((onlyOnce_concat.mp h').2.2 before k [.stop] (by simp [hcs]) hk).1
    cases this

/-- One more `Stop`. -/
theorem tracked_stop (h : Tracked cs (.ok s)) (hstop : s.Stops r) : Tracked (cs ++ [.stop]) r := by
  obtain ⟨honly, hclean, hstage⟩ := h
  have hend (before : List Call) (m : ℤ) : cs ++ [.stop] ≠ before ++ [.start m] := by
    intro he
    cases List.append_inj_right' he rfl
  cases hstage with
  | idle hlast hnone hthreads hloop hepoll =>
    have hnone' (m : ℤ) (hm : 0 < m) : Call.start m ∉ cs ++ [.stop] := by
      simpa using hnone m hm
    cases hstop with
    | nothing _ _ =>
      refine ⟨onlyOnce_concat.mpr ⟨honly, nofun, ?_⟩, hclean,
        .idle hend hnone' hthreads hloop hepoll⟩
      rintro before m after rfl hm
      exact absurd (by simp) (hnone m hm)
    | joined hne _ => exact absurd hthreads hne
    | done _ hstarted _ => exact absurd hstarted hloop
  | @started before m hcs hnone hm hthreads hjoinable hloop =>
    cases hstop with
    | nothing _ hnot => exact absurd hloop hnot
    | joined _ hnot => exact absurd (hjoinable.symm.trans hnot) nofun
    | @done left _ _ hserved =>
      refine ⟨onlyOnce_concat.mpr ⟨honly, nofun, ?_⟩, clean_of_served hclean hserved, ?_⟩
      · intro before' k after hcs' hk
        rcases List.eq_nil_or_concat after with rfl | ⟨after, d, rfl⟩
        · exact ⟨rfl, rfl⟩
        · have hfront := List.append_inj_left' (hcs.symm.trans (hcs'.trans
            (by simp : _ = (before' ++ .start k :: after) ++ [d]))) rfl
          exact absurd (by simp [hfront]) (hnone k hk)
      · rcases hm.eq_or_lt with rfl | hpos
        · refine .idle hend (fun k hk => ?_) hthreads nofun rfl
          have hne : k ≠ 0 := by omega
          simpa [hcs, hne] using hnone k hk
        · have hcalls : cs ++ [.stop] = before ++ [.start m, .stop] := by simp [hcs]
          exact .ended hcalls hpos hthreads rfl
  | @ended before k hcs hk hthreads hjoinable =>
    cases hstop with
    | nothing hzero _ => omega
    | joined _ _ =>
      intro h'
      have := ((onlyOnce_concat.mp h').2.2 before k [.stop] (by simp [hcs]) hk).1
      cases this
    | done hjoin _ _ =>
      have hne : s.threads ≠ 0 := by omega
      exact absurd (hjoinable.symm.trans (hjoin hne)) nofun

theorem tracked_of_runs (h : Runs cs r) (hw : WellUsed cs) : Tracked cs r := by
  induction h with
  | nil =>
    refine ⟨fun before m after he => absurd he (by simp), ⟨List.not_mem_nil, Nat.zero_le _⟩,
      .idle (by simp) (by simp) rfl nofun rfl⟩
  | @call cs c s r _ hcall ih =>
    cases c with
    | start m => exact tracked_start hw (ih hw.of_concat) hcall
    | stop => exact tracked_stop (ih hw.of_concat) hcall
  | ended _ ih => exact fun h' => ih hw.of_concat (onlyOnce_concat.mp h').1

/-- **Lifecycle of the timer manager**: in a sequence of calls where a `Start` follows the
construction or a `Stop`, no assertion fails, no thread is joined again and after each `Start` the
work threads asked for serve a queue without null handlers, exactly if no `Start` asks for a
negative number of threads and after one that asks for some there is only its `Stop`. -/
theorem lifecycle_iff (hw : WellUsed cs) (h : Runs cs r) : Sound cs r ↔ OnlyOnce cs := by
  have htracked := tracked_of_runs h hw
  cases r with
  | error f => exact iff_of_false nofun htracked
  | ok s =>
    obtain ⟨honly, hclean, hstage⟩ := htracked
    refine iff_of_true ⟨s, rfl, fun before m hcs => ?_⟩ honly
    cases hstage with
    | idle hlast _ _ _ _ => exact absurd hcs (hlast before m)
    | @started before' k hcs' _ hk hthreads _ _ =>
      obtain rfl : k = m := by
        have := List.append_inj_right' (hcs'.symm.trans hcs) rfl
        simpa using this
      exact ⟨by omega, hclean.1, fun m hr hposted => live_of_reachable hclean hr hposted⟩
    | @ended before' k hcs' _ _ _ =>
      have hsplit : (before' ++ [.start k]) ++ [.stop] = before ++ [.start m] := by
        simpa using hcs'.symm.trans hcs
      cases List.append_inj_right' hsplit rfl

/-- A single work thread takes the null handler and exits. -/
theorem served_one : Served 1 ([] : List (Option ℕ)) [] := by
  obtain ⟨s, hrun, hposted, hexited, hloop, hmain, hworker, hqueue⟩ : ∃ s : Manager 1 ℕ,
      (managerFrom 1 []).exec Free (.fresh 1 [])
        [.queue (.call .main (.push none) none), .queue (.leave .main),
          .queue (.call (.worker 0) .pop none), .exit 0] = some s ∧ s.posted = 1 ∧
        s.exited = Finset.univ ∧ s.queue.pc .loop = .idle ∧ s.queue.pc .main = .idle ∧
        s.queue.pc (.worker 0) = .idle ∧ s.queue.data.queue = [] :=
    ⟨_, rfl, rfl, by decide, rfl, rfl, rfl, rfl⟩
  refine ⟨s, System.reachable_of_exec rfl hrun, hposted, hexited, fun t => ?_, hqueue⟩
  match t with
  | .loop => exact hloop
  | .main => exact hmain
  | .worker 0 => exact hworker

theorem runs_one :
    Runs [.start 1, .stop] (.ok (⟨1, false, .stopped, false, []⟩ : Lifecycle ℕ)) := by
  have hstart : Runs ([] ++ [.start 1]) (.ok (⟨1, true, .started, true, []⟩ : Lifecycle ℕ)) :=
    .call .nil (show Lifecycle.start _ 1 = _ from rfl)
  have hstop : (⟨1, true, .started, true, []⟩ : Lifecycle ℕ).Stops
      (.ok ⟨1, false, .stopped, false, []⟩) := .done (fun _ => rfl) rfl served_one
  exact .call hstart (show Lifecycle.Calls _ .stop _ from hstop)

/-- Without work threads a handler stays in the queue. -/
theorem served_none : Served 0 ([] : List (Option ℕ)) [some 7] := by
  obtain ⟨s, hrun, hposted, hloop, hmain, hqueue⟩ : ∃ s : Manager 0 ℕ,
      (managerFrom 0 []).exec Free (.fresh 0 [])
        [.queue (.call .loop (.push (some 7)) none), .queue (.leave .loop)] = some s ∧
        s.posted = 0 ∧ s.queue.pc .loop = .idle ∧ s.queue.pc .main = .idle ∧
        s.queue.data.queue = [some 7] :=
    ⟨_, rfl, rfl, rfl, rfl, rfl⟩
  refine ⟨s, System.reachable_of_exec rfl hrun, hposted, Finset.ext fun i => i.elim0, fun t => ?_,
    hqueue⟩
  match t with
  | .loop => exact hloop
  | .main => exact hmain

/-- A cycle without work threads leaves a handler in the queue, and the next `Start` asks for two
threads. -/
theorem lifecycle_again : ∃ s : Lifecycle ℕ, Runs [.start 0, .stop, .start 2] (.ok s) ∧
    s.queue = [some 7] ∧ Serving 2 s := by
  have hstart : Runs ([] ++ [.start 0]) (.ok (⟨0, true, .started, true, []⟩ : Lifecycle ℕ)) :=
    .call .nil (show Lifecycle.start _ 0 = _ from rfl)
  have hstop : (⟨0, true, .started, true, []⟩ : Lifecycle ℕ).Stops
      (.ok ⟨0, false, .stopped, false, [some 7]⟩) := .done (fun _ => rfl) rfl served_none
  have hruns : Runs [.start 0, .stop, .start 2]
      (.ok (⟨2, true, .started, true, [some 7]⟩ : Lifecycle ℕ)) :=
    .call (.call hstart (show Lifecycle.Calls _ .stop _ from hstop))
      (show Lifecycle.start _ 2 = _ from rfl)
  have hused : WellUsed [.start 0, .stop, .start 2] := by
    rintro (_ | ⟨b, _ | ⟨b', _ | ⟨b'', before⟩⟩⟩) c m after he <;> simp_all
  have honly : OnlyOnce [.start 0, .stop, .start 2] := by
    rintro (_ | ⟨b, _ | ⟨b', _ | ⟨b'', before⟩⟩⟩) m after he
    · exact .inl (Call.start.inj (List.cons.inj he).1).symm
    · cases (List.cons.inj (List.cons.inj he).2).1
    · obtain ⟨hm, hafter⟩ := List.cons.inj (List.cons.inj (List.cons.inj he).2).2
      obtain rfl := Call.start.inj hm
      exact .inr ⟨by decide, .inl hafter.symm⟩
    · simp at he
  obtain ⟨s, hs, hserving⟩ := (lifecycle_iff hused hruns).mpr honly
  cases hs
  exact ⟨_, hruns, rfl, hserving [.start 0, .stop] 2 rfl⟩

/-- The second `Start` fails its assertion. -/
theorem second_start : ¬∀ (cs : List Call) (r : Except Fault (Lifecycle ℕ)), WellUsed cs →
    Runs cs r → Sound cs r := by
  intro h
  have hruns : Runs [.start 1, .stop, .start 1] (.error .assertion : Except Fault (Lifecycle ℕ)) :=
    .call runs_one (show Lifecycle.start _ 1 = _ from rfl)
  have hused : WellUsed [.start 1, .stop, .start 1] := by
    rintro (_ | ⟨b, _ | ⟨b', _ | ⟨b'', before⟩⟩⟩) c m after he <;> simp_all
  obtain ⟨s, hs, -⟩ := h _ _ hused hruns
  cases hs

end Sequences

end Xfnet.TimerManager
