import Xfnet.Timer.Expiry

/-!
# The timer argument of a callback

`AddTimer` returns the address of the `TimerHandler`, and `SetTimer` and `RemoveTimer` take their
pointer for one. But `Timer::Execute` passes its own `this`, the address of `m_timer` inside the
handler. So no callback gets the handle of its timer, and while it runs there is no handler at all
at the address it got (`handle_differs`).
-/

namespace Xfnet.TimerManager.Timers

open BlockingQueue Transition

variable {n : ℕ} {U H : Type*} [DecidableEq H] {L : Layout}

/-- Every callback called so far got what `AddTimer` returned for its timer. -/
def Agrees (s : State n U H) : Prop := ∀ e ∈ s.calls, s.handle e.handler = some e.timer

/-! ## Addresses -/

/-- The handlers with an owner lie apart from each other, and handles and callback arguments are
those of the addresses. -/
structure Inv (L : Layout) (s : State n U H) : Prop where
  created : ∀ h, s.Owned h → h ∈ s.created
  apart : ∀ h h', s.Owned h → s.Owned h' → h ≠ h' → L.Apart (s.address h) (s.address h')
  handle : ∀ h a, s.handle h = some a → h ∈ s.created ∧ a = s.address h
  calls : ∀ e ∈ s.calls, e.handler ∈ s.created ∧ e.timer = s.timer L e.handler

section Steps

variable {s s' : State n U H} {l : Label n U H} {h h' : H}

theorem Layout.Apart.symm {a b : ℕ} (h : L.Apart a b) : L.Apart b a := Or.symm h

/-- A step that creates nothing. -/
theorem Inv.of_owned (hinv : Inv L s) (howned : ∀ h, s'.Owned h → s.Owned h)
    (hcreated : s'.created = s.created) (haddress : s'.address = s.address)
    (hhandle : ∀ h a, s'.handle h = some a → h ∈ s.created ∧ a = s.address h)
    (hcalls : ∀ e ∈ s'.calls, e.handler ∈ s.created ∧ e.timer = s.timer L e.handler) :
    Inv L s' := by
  refine ⟨fun h ho => ?_, fun h h' ho ho' hne => ?_, ?_, ?_⟩
  · rw [hcreated]
    exact hinv.created h (howned h ho)
  · rw [haddress]
    exact hinv.apart h h' (howned h ho) (howned h' ho') hne
  · rw [hcreated, haddress]
    exact hhandle
  · unfold State.timer
    rw [hcreated, haddress]
    exact hcalls

variable [DecidableEq U]

/-- `AddTimer` creates a handler where none lives. -/
theorem Inv.add {u : U} {address interval arg : ℕ} (hinv : Inv L s) (hnew : h ∉ s.created)
    (hapart : ∀ h' ∈ s.created, s.Owned h' → L.Apart address (s.address h'))
    (hstep : Step L s (.add u h address interval arg) s')
    (hcreated : s'.created = insert h s.created)
    (haddress : s'.address = Function.update s.address h address) (hhandle : s'.handle = s.handle)
    (hcalls : s'.calls = s.calls) : Inv L s' := by
  have hne {h' : H} (hin : h' ∈ s.created) : h' ≠ h := fun he => hnew (he ▸ hin)
  have hold {h' : H} (hne : h' ≠ h) : s'.address h' = s.address h' := by
    rw [haddress, Function.update_of_ne hne]
  have howned {h' : H} (ho : s'.Owned h') (hne : h' ≠ h) : s.Owned h' := by
    refine (owned_step hstep ho).resolve_right fun ⟨_, _, _, _, he⟩ => ?_
    cases he
    exact hne rfl
  have hfresh {h' : H} (ho : s'.Owned h') (hne : h' ≠ h) :
      L.Apart (s'.address h) (s'.address h') := by
    have ho' := howned ho hne
    rw [hold hne, haddress, Function.update_self]
    exact hapart h' (hinv.created h' ho') ho'
  refine ⟨fun h' ho => ?_, fun h₁ h₂ ho₁ ho₂ hne₁₂ => ?_, fun h' a ha => ?_, fun e he => ?_⟩
  · rw [hcreated]
    by_cases hh : h' = h
    · exact hh ▸ Finset.mem_insert_self ..
    · exact Finset.mem_insert_of_mem (hinv.created h' (howned ho hh))
  · by_cases hh₁ : h₁ = h
    · subst hh₁
      exact hfresh ho₂ hne₁₂.symm
    · by_cases hh₂ : h₂ = h
      · subst hh₂
        exact (hfresh ho₁ hh₁).symm
      · rw [hold hh₁, hold hh₂]
        exact hinv.apart h₁ h₂ (howned ho₁ hh₁) (howned ho₂ hh₂) hne₁₂
  · rw [hhandle] at ha
    obtain ⟨hin, rfl⟩ := hinv.handle h' a ha
    exact ⟨hcreated ▸ Finset.mem_insert_of_mem hin, (hold (hne hin)).symm⟩
  · rw [hcalls] at he
    obtain ⟨hin, htimer⟩ := hinv.calls e he
    refine ⟨hcreated ▸ Finset.mem_insert_of_mem hin, ?_⟩
    rw [htimer, State.timer, State.timer, hold (hne hin)]

/-- **One step keeps the handlers apart.** -/
theorem inv_step (hinv : Inv L s) (hstep : Step L s l s') : Inv L s' := by
  have howned (hl : ∀ u h address interval arg, l ≠ .add u h address interval arg) (h : H)
      (ho : s'.Owned h) : s.Owned h :=
    (owned_step hstep ho).resolve_right fun ⟨_, _, _, _, he⟩ => hl _ _ _ _ _ he
  cases hstep with
  | add hcall hnew hapart => exact hinv.add hnew hapart (.add hcall hnew hapart) rfl rfl rfl rfl
  | @registered u h₀ hcall =>
    refine hinv.of_owned (howned nofun) rfl rfl (fun h a ha => ?_) hinv.calls
    by_cases hne : h = h₀
    · subst hne
      have hself := (Function.update_self h (some (s.address h)) s.handle).symm.trans ha
      refine ⟨hinv.created h (s.owned_of_call u ?_), (Option.some.inj hself).symm⟩
      rw [hcall]
      rfl
    · exact hinv.handle h a ((Function.update_of_ne hne ..).symm.trans ha)
  | @run i h₀ m hpc hm =>
    refine hinv.of_owned (howned nofun) rfl rfl hinv.handle fun e he => ?_
    rcases List.mem_append.mp he with he | he
    · exact hinv.calls e he
    · obtain rfl := List.mem_singleton.mp he
      have hpos : 0 < inFlight (some h₀) s.manager.queue :=
        Nat.lt_of_lt_of_eq (Nat.succ_pos _) (inFlight_run hpc hm)
      exact ⟨hinv.created h₀ (s.owned_of_inFlight hpos), rfl⟩
  | _ => exact hinv.of_owned (howned nofun) rfl rfl hinv.handle hinv.calls

variable [Fintype U]

theorem inv_of_reachable (h : (timers L n U H).Reachable Free s) : Inv L s := by
  refine System.Reachable.invariant (I := Inv L) ?_
    (fun s l s' _ hinv _ hn => inv_step hinv (step_of_next hn)) h
  rintro s rfl
  have hnone (h : H) : ¬(State.fresh n U H).Owned h := by
    rintro (ho | ⟨u, ho⟩ | ho | ho | ⟨i, ho⟩)
    · cases ho
    · cases ho
    · cases ho
    · exact absurd (inFlight_of_idle rfl fun _ => rfl) ho.ne'
    · cases ho
  exact ⟨fun h ho => (hnone h ho).elim, fun h _ ho => (hnone h ho).elim, nofun, nofun⟩

end Steps

/-! ## What a callback gets -/

section Callbacks

variable [Fintype U] [DecidableEq U] {s : State n U H} {h h' : H}

omit [Fintype U] [DecidableEq U] in
/-- There is no handler where the `Timer` of another, or its own, lies. -/
theorem Inv.address_ne_timer (hinv : Inv L s) (ho : s.Owned h) (ho' : s.Owned h') :
    s.address h' ≠ s.timer L h := by
  have hpos := L.timer_pos
  have hlt := L.timer_lt
  unfold State.timer
  by_cases hne : h = h'
  · subst hne
    omega
  · rcases hinv.apart h h' ho ho' hne with hle | hle <;> omega

/-- **No callback gets the handle of its timer**, in any run. While it runs, `RemoveTimer` finds no
handler under the pointer it got, and there is none for which `SetTimer` could take it. -/
theorem handle_differs (hr : (timers L n U H).Reachable Free s) :
    (Agrees s ↔ s.calls = []) ∧ ∀ e ∈ s.calls, s.handle e.handler ≠ some e.timer ∧
      ∀ i, s.running i = some e.handler → ∀ u h,
        s.next L (.remove u e.timer (some h)) = none ∧
          ∀ interval ok, s.next L (.set u e.timer h interval ok) = none := by
  have hinv := inv_of_reachable hr
  have hdiffers : ∀ e ∈ s.calls, s.handle e.handler ≠ some e.timer := by
    intro e he heq
    have haddress := (hinv.handle e.handler e.timer heq).2
    have hpos := L.timer_pos
    rw [(hinv.calls e he).2, State.timer] at haddress
    omega
  refine ⟨⟨fun hagrees => ?_, fun hnil e he => ?_⟩, fun e he => ⟨hdiffers e he, ?_⟩⟩
  · exact List.eq_nil_iff_forall_not_mem.mpr fun e he => hdiffers e he (hagrees e he)
  · rw [hnil] at he
    cases he
  · intro i hrun u h
    have hne {h : H} (ho : s.Owned h) : s.address h ≠ e.timer := by
      rw [(hinv.calls e he).2]
      exact hinv.address_ne_timer (s.owned_of_running i hrun) ho
    refine ⟨Option.eq_none_iff_forall_ne_some.mpr fun s' hn => ?_,
      fun interval ok => Option.eq_none_iff_forall_ne_some.mpr fun s' hn => ?_⟩
    · cases step_of_next hn with
      | found _ hin haddress => exact hne (s.owned_of_map hin) haddress
    · cases step_of_next hn with
      | set _ howned haddress => exact hne howned haddress
      | unset _ howned haddress => exact hne howned haddress

/-- A timer of 500 ms, and the first call of its callback. -/
theorem called_once : ∃ s : State 1 Unit ℕ, (timers lp64 1 Unit ℕ).Reachable Free s ∧
    s.calls = [⟨0, 4128, 7⟩] ∧ s.handle 0 = some 4096 ∧ s.running 0 = some 0 ∧
      ∃ s', s.next lp64 (.remove () 4128 none) = some s' ∧ s'.result () = true ∧
        s'.handlers = s.handlers := by
  obtain ⟨s, hrun, hcalls, hhandle, hrunning, hremove⟩ : ∃ s : State 1 Unit ℕ,
      (timers lp64 1 Unit ℕ).exec Free (.fresh 1 Unit ℕ)
        [.add () 0 4096 500 7, .register () true, .select [0], .expire none, .handled,
          .work (.queue (.call (.worker 0) .pop none)), .run 0] = some s ∧
        s.calls = [⟨0, 4128, 7⟩] ∧ s.handle 0 = some 4096 ∧ s.running 0 = some 0 ∧
          ∃ s', s.next lp64 (.remove () 4128 none) = some s' ∧ s'.result () = true ∧
            s'.handlers = s.handlers :=
    ⟨_, rfl, rfl, rfl, rfl, _, rfl, rfl, rfl⟩
  exact ⟨s, System.reachable_of_exec rfl hrun, hcalls, hhandle, hrunning, hremove⟩

/-- Its callback got another pointer than `AddTimer` returned, and `RemoveTimer` has nothing to find
under it. -/
theorem handle_differs_once : ∃ s : State 1 Unit ℕ, (timers lp64 1 Unit ℕ).Reachable Free s ∧
    s.calls = [⟨0, 4128, 7⟩] ∧ s.handle 0 ≠ some 4128 ∧
      ∀ h, s.next lp64 (.remove () 4128 (some h)) = none := by
  obtain ⟨s, hr, hcalls, -, hrunning, -⟩ := called_once
  obtain ⟨hdiffers, hmissing⟩ := (handle_differs hr).2 ⟨0, 4128, 7⟩ (by simp [hcalls])
  exact ⟨s, hr, hcalls, hdiffers, fun h => (hmissing 0 hrunning () h).1⟩

/-- `RemoveTimer`, called in the callback with the pointer it got, returns `true` and the timer
stays. -/
theorem removes_nothing : ∃ s : State 1 Unit ℕ, (timers lp64 1 Unit ℕ).Reachable Free s ∧
    ¬Agrees s ∧ s.running 0 = some 0 ∧ ∃ s', s.next lp64 (.remove () 4128 none) = some s' ∧
      s'.result () = true ∧ s'.handlers = s.handlers := by
  obtain ⟨s, hr, hcalls, hhandle, hrunning, hremove⟩ := called_once
  refine ⟨s, hr, fun hagrees => ?_, hrunning, hremove⟩
  have hfirst := hagrees ⟨0, 4128, 7⟩ (by simp [hcalls])
  rw [hhandle] at hfirst
  cases hfirst

end Callbacks

end Xfnet.TimerManager.Timers
