import Mathlib.Data.List.Basic
import Xfnet.Foundations.Counting

/-!
# Linearizability

The history of an object is what its callers see: their calls and the returns of these, in the
order in which they happened. It is linearizable when its operations can be put in one order that a
sequential run of the object could have, with the same results, and that leaves an operation which
returned before another one was called in front of that one.

A thread calls an operation, which takes effect and returns; `Recorded` is what these moves keep
when every operation is put in the order where it takes effect. An operation that may still turn out
to have had none is put there provisionally: a slot that is not kept.
-/

namespace Linearizability

open Counting

universe u v w

variable {T : Type u} {Op : Type v} {R : Type w}

/-- What the callers see. Operations are numbered. -/
inductive Event (T : Type u) (Op : Type v) (R : Type w)
  | call (id : ℕ) (t : T) (op : Op)
  | ret (id : ℕ) (r : R)

/-- An operation in the order. It may not have returned yet. -/
structure Entry (T : Type u) (Op : Type v) (R : Type w) where
  id : ℕ
  thread : T
  op : Op
  result : R

def Entry.operation (e : Entry T Op R) : T × Op × R := (e.thread, e.op, e.result)

/-- `a` returned before `b` was called. -/
def Precedes (events : List (Event T Op R)) (a b : ℕ) : Prop :=
  ∃ before after, events = before ++ after ∧ (∃ r, .ret a r ∈ before) ∧
    ∃ t op, .call b t op ∈ after

/-- The order is one of the operations of the history: of all that returned, with their results, and
of some that did not, each once. -/
structure Linearizes (legal : List (T × Op × R) → Prop) (events : List (Event T Op R))
    (order : List (Entry T Op R)) : Prop where
  legal : legal (order.map Entry.operation)
  called : ∀ e ∈ order, .call e.id e.thread e.op ∈ events
  once : (order.map Entry.id).Nodup
  returned : ∀ id r, .ret id r ∈ events → ∃ e ∈ order, e.id = id ∧ e.result = r
  realTime : order.Pairwise fun a b => ¬Precedes events b.id a.id

def Linearizable (legal : List (T × Op × R) → Prop) (events : List (Event T Op R)) : Prop :=
  ∃ order, Linearizes legal events order

theorem Precedes.returned {events : List (Event T Op R)} {a b : ℕ} (h : Precedes events a b) :
    ∃ r, .ret a r ∈ events := by
  obtain ⟨before, after, rfl, ⟨r, hr⟩, -⟩ := h
  exact ⟨r, List.mem_append_left _ hr⟩

/-- A new event orders nothing but the operation that it calls. -/
theorem Precedes.of_concat {events : List (Event T Op R)} {e : Event T Op R} {a b : ℕ}
    (h : Precedes (events ++ [e]) a b) (he : ∀ t op, e ≠ .call b t op) : Precedes events a b := by
  obtain ⟨before, after, heq, hret, t, op, hcall⟩ := h
  rcases List.eq_nil_or_concat after with rfl | ⟨after', e', rfl⟩
  · cases hcall
  · rw [List.concat_eq_append] at hcall heq
    rw [← List.append_assoc] at heq
    obtain ⟨rfl, rfl⟩ : events = before ++ after' ∧ e = e' := by
      simpa using List.append_inj' heq rfl
    refine ⟨before, after', rfl, hret, t, op, ?_⟩
    rcases List.mem_append.mp hcall with hcall | hcall
    · exact hcall
    · exact absurd (List.mem_singleton.mp hcall).symm (he t op)

/-! ## Where the operations take effect -/

/-- A place in the order, given to an operation for good or not. -/
structure Slot (T : Type u) (Op : Type v) (R : Type w) extends Entry T Op R where
  kept : Bool

def Slot.keep (id : ℕ) (slot : Slot T Op R) : Slot T Op R :=
  if slot.id = id then { slot with kept := true } else slot

/-- The order that the slots stand for. -/
def ordered (slots : List (Slot T Op R)) : List (Entry T Op R) :=
  (slots.filter Slot.kept).map Slot.toEntry

theorem ordered_concat (slots : List (Slot T Op R)) (e : Slot T Op R) :
    ordered (slots ++ [e]) = ordered slots ++ if e.kept then [e.toEntry] else [] := by
  rw [ordered, List.filter_append, List.filter_singleton, List.map_append]
  cases e.kept <;> rfl

/-- Where a thread is: between its operations, before its operation takes effect, or behind it. -/
inductive Phase (Op : Type v) (R : Type w)
  | idle
  | called (id : ℕ) (op : Op)
  | done (id : ℕ) (r : R)

/-- The operation that a thread is in. -/
def Phase.id : Phase Op R → Option ℕ
  | idle => none
  | called id _ => some id
  | done id _ => some id

/-- What is known of the operation that the thread is in: it has not returned, and its slot is kept
once it took effect. -/
def Phase.Ok (events : List (Event T Op R)) (slots : List (Slot T Op R)) (t : T) :
    Phase Op R → Prop
  | idle => True
  | called id op =>
    .call id t op ∈ events ∧ (∀ e ∈ slots, e.kept → e.id ≠ id) ∧ ∀ r, .ret id r ∉ events
  | done id r => (∃ e ∈ slots, e.kept ∧ e.id = id ∧ e.result = r) ∧ ∀ r, .ret id r ∉ events

/-- The invariant: the operations that took effect have a slot that is kept, and no two threads are
in the same operation. -/
structure Recorded (events : List (Event T Op R)) (slots : List (Slot T Op R))
    (phase : T → Phase Op R) : Prop where
  fresh : ∀ id t op, .call id t op ∈ events → id < events.length
  called : ∀ e ∈ slots, .call e.id e.thread e.op ∈ events
  once : (slots.map fun e => e.id).Nodup
  returned : ∀ id r, .ret id r ∈ events → ∃ e ∈ slots, e.kept ∧ e.id = id ∧ e.result = r
  realTime : slots.Pairwise fun a b => ¬Precedes events b.id a.id
  phases : ∀ t, (phase t).Ok events slots t
  apart : ∀ t u id, (phase t).id = some id → (phase u).id = some id → t = u

namespace Recorded

variable {events : List (Event T Op R)} {slots : List (Slot T Op R)} {phase : T → Phase Op R}
  {t : T} {id : ℕ} {op : Op} {r : R} {p : Phase Op R}

theorem start : Recorded ([] : List (Event T Op R)) [] fun _ => .idle where
  fresh := nofun
  called := nofun
  once := List.nodup_nil
  returned := nofun
  realTime := .nil
  phases _ := trivial
  apart := nofun

/-- **The kept slots are the order.** -/
theorem linearizes {legal : List (T × Op × R) → Prop} (h : Recorded events slots phase)
    (hlegal : legal ((ordered slots).map Entry.operation)) :
    Linearizes legal events (ordered slots) := by
  refine ⟨hlegal, fun e he => ?_, ?_, fun id r hr => ?_, ?_⟩
  · obtain ⟨slot, hslot, rfl⟩ := List.mem_map.mp he
    exact h.called slot (List.mem_of_mem_filter hslot)
  · rw [ordered, List.map_map]
    exact (List.filter_sublist.map _).nodup h.once
  · obtain ⟨slot, hslot, hkept, hid, hresult⟩ := h.returned id r hr
    exact ⟨slot.toEntry, List.mem_map_of_mem (List.mem_filter.mpr ⟨hslot, hkept⟩), hid, hresult⟩
  · rw [ordered, List.pairwise_map]
    exact h.realTime.sublist List.filter_sublist

theorem id_lt_of_mem (h : Recorded events slots phase) {e : Slot T Op R} (he : e ∈ slots) :
    e.id < events.length :=
  h.fresh _ _ _ (h.called e he)

theorem id_lt_of_ret (h : Recorded events slots phase) (hr : .ret id r ∈ events) :
    id < events.length := by
  obtain ⟨e, he, -, rfl, -⟩ := h.returned id r hr
  exact h.id_lt_of_mem he

theorem id_lt (h : Recorded events slots phase) (ht : (phase t).id = some id) :
    id < events.length := by
  have hok := h.phases t
  cases hp : phase t with
  | idle =>
    rw [hp] at ht
    cases ht
  | called id' op =>
    rw [hp] at ht hok
    cases ht
    exact h.fresh _ _ _ hok.1
  | done id' r =>
    rw [hp] at ht hok
    cases ht
    obtain ⟨⟨e, he, -, rfl, -⟩, -⟩ := hok
    exact h.id_lt_of_mem he

/-! ### Slots that are not kept -/

/-- A thread whose operation has not taken effect gives up its slot. -/
theorem drop (h : Recorded events slots phase) (ht : phase t = .called id op) :
    Recorded events (slots.filter fun e => e.id ≠ id) phase := by
  have hok := h.phases t
  rw [ht] at hok
  have hmem {e : Slot T Op R} (he : e ∈ slots) (hkept : e.kept) :
      e ∈ slots.filter fun e => e.id ≠ id :=
    List.mem_filter.mpr ⟨he, decide_eq_true (hok.2.1 e he hkept)⟩
  refine ⟨h.fresh, fun e he => h.called e (List.mem_of_mem_filter he),
    (List.filter_sublist.map _).nodup h.once, fun id' r hr => ?_,
    h.realTime.sublist List.filter_sublist, fun u => ?_, h.apart⟩
  · obtain ⟨e, he, hkept, hres⟩ := h.returned id' r hr
    exact ⟨e, hmem he hkept, hkept, hres⟩
  · have hoku := h.phases u
    cases hp : phase u with
    | idle => trivial
    | called id' op' =>
      rw [hp] at hoku
      exact ⟨hoku.1, fun e he => hoku.2.1 e (List.mem_of_mem_filter he), hoku.2.2⟩
    | done id' r =>
      rw [hp] at hoku
      obtain ⟨⟨e, he, hkept, hres⟩, hnot⟩ := hoku
      exact ⟨⟨e, hmem he hkept, hkept, hres⟩, hnot⟩

/-- A slot behind all others, for an operation that has none and has not returned. -/
theorem put (h : Recorded events slots phase) (hcall : .call id t op ∈ events)
    (hnew : ∀ e ∈ slots, e.id ≠ id) (hnot : ∀ r, .ret id r ∉ events) (r : R) :
    Recorded events (slots ++ [⟨⟨id, t, op, r⟩, false⟩]) phase := by
  refine ⟨h.fresh, fun e he => ?_, ?_, fun id' r' hr => ?_, ?_, fun u => ?_, h.apart⟩
  · rcases List.mem_append.mp he with he | he
    · exact h.called e he
    · cases List.mem_singleton.mp he
      exact hcall
  · rw [List.map_append, List.map_singleton]
    refine List.nodup_append.mpr ⟨h.once, List.nodup_singleton _, ?_⟩
    intro a ha b hb
    obtain ⟨e, he, rfl⟩ := List.mem_map.mp ha
    cases List.mem_singleton.mp hb
    exact hnew e he
  · obtain ⟨e, he, hres⟩ := h.returned id' r' hr
    exact ⟨e, List.mem_append_left _ he, hres⟩
  · -- the operation has not returned, so it precedes nothing
    refine List.pairwise_append.mpr ⟨h.realTime, List.pairwise_singleton _ _, ?_⟩
    intro a ha b hb hprec
    cases List.mem_singleton.mp hb
    obtain ⟨r', hr'⟩ := hprec.returned
    exact hnot r' hr'
  · have hok := h.phases u
    cases hp : phase u with
    | idle => trivial
    | called id' op' =>
      rw [hp] at hok
      refine ⟨hok.1, fun e he hkept => ?_, hok.2.2⟩
      rcases List.mem_append.mp he with he | he
      · exact hok.2.1 e he hkept
      · cases List.mem_singleton.mp he
        cases hkept
    | done id' r' =>
      rw [hp] at hok
      obtain ⟨⟨e, he, hres⟩, hunreturned⟩ := hok
      exact ⟨⟨e, List.mem_append_left _ he, hres⟩, hunreturned⟩

/-! ### The moves of a thread -/

variable [DecidableEq T]

/-- Threads in operations of their own stay so when one of them gets a new one, goes on in its own,
or leaves it. -/
theorem apart_update (h : Recorded events slots phase)
    (hp : ∀ id, p.id = some id → ∀ u, u ≠ t → (phase u).id ≠ some id) (u u' : T) (id : ℕ)
    (hu : (Function.update phase t p u).id = some id)
    (hu' : (Function.update phase t p u').id = some id) : u = u' := by
  by_cases hut : u = t
  · by_cases hut' : u' = t
    · exact hut.trans hut'.symm
    · rw [hut, Function.update_self] at hu
      rw [Function.update_of_ne hut'] at hu'
      exact absurd hu' (hp id hu u' hut')
  · rw [Function.update_of_ne hut] at hu
    by_cases hut' : u' = t
    · rw [hut', Function.update_self] at hu'
      exact absurd hu (hp id hu' u hut)
    · rw [Function.update_of_ne hut'] at hu'
      exact h.apart u u' id hu hu'

/-- A thread calls an operation, which gets the next number. -/
theorem call (h : Recorded events slots phase) (t : T) (op : Op) :
    Recorded (events ++ [.call events.length t op]) slots
      (Function.update phase t (.called events.length op)) := by
  have hret {id : ℕ} {r : R} (he : .ret id r ∈ events ++ [.call events.length t op]) :
      .ret id r ∈ events := by simpa using he
  refine ⟨fun id u op' hcall => ?_, fun e he => List.mem_append_left _ (h.called e he), h.once,
    fun id r hr => h.returned id r (hret hr), ?_, forall_update (fun u => ?_) ?_,
    h.apart_update ?_⟩
  · rw [List.length_append, List.length_singleton]
    rcases List.mem_append.mp hcall with hcall | hcall
    · exact Nat.lt_succ_of_lt (h.fresh id u op' hcall)
    · cases List.mem_singleton.mp hcall
      exact Nat.lt_succ_self _
  · refine h.realTime.imp_of_mem fun {a b} ha hb hab hprec => hab (hprec.of_concat ?_)
    intro u op' heq
    exact (h.id_lt_of_mem ha).ne (Event.call.inj heq).1.symm
  · have hok := h.phases u
    cases hp : phase u with
    | idle => trivial
    | called id op' =>
      rw [hp] at hok
      exact ⟨List.mem_append_left _ hok.1, hok.2.1, fun r hr => hok.2.2 r (hret hr)⟩
    | done id r =>
      rw [hp] at hok
      exact ⟨hok.1, fun r hr => hok.2 r (hret hr)⟩
  · exact ⟨List.mem_append_right _ (List.mem_singleton_self _),
      fun e he _ => (h.id_lt_of_mem he).ne, fun r hr => (h.id_lt_of_ret (hret hr)).ne rfl⟩
  · rintro id hid u - hu
    cases hid
    exact (h.id_lt hu).ne rfl

/-- The operation of a thread takes effect where its slot is. -/
theorem keep (h : Recorded events slots phase) (ht : phase t = .called id op)
    {e : Slot T Op R} (he : e ∈ slots) (hslot : e.id = id) :
    Recorded events (slots.map (Slot.keep id)) (Function.update phase t (.done id e.result)) := by
  have hid : (phase t).id = some id := by rw [ht]; rfl
  have hok := h.phases t
  rw [ht] at hok
  obtain ⟨-, hnew, hunreturned⟩ := hok
  have hentry (e : Slot T Op R) : (e.keep id).toEntry = e.toEntry := by
    unfold Slot.keep
    split <;> rfl
  have hother : ∀ id', some id = some id' → ∀ u, u ≠ t → (phase u).id ≠ some id' :=
    fun id' hid' u hut hu => hut (h.apart u t id' hu (hid.trans hid'))
  have hstays {id' : ℕ} {r : R} : (∃ e ∈ slots, e.kept ∧ e.id = id' ∧ e.result = r) →
      ∃ e ∈ slots.map (Slot.keep id), e.kept ∧ e.id = id' ∧ e.result = r := by
    rintro ⟨e, he, hkept, rfl, rfl⟩
    refine ⟨e.keep id, List.mem_map_of_mem he, ?_, congrArg Entry.id (hentry e),
      congrArg Entry.result (hentry e)⟩
    unfold Slot.keep
    split
    · rfl
    · exact hkept
  refine ⟨h.fresh, fun e' he' => ?_, ?_, fun id' r hr => hstays (h.returned id' r hr), ?_,
    fun u => ?_, h.apart_update hother⟩
  · obtain ⟨e, he, rfl⟩ := List.mem_map.mp he'
    rw [hentry]
    exact h.called e he
  · have hids : (slots.map (Slot.keep id)).map (fun e => e.id) = slots.map fun e => e.id := by
      rw [List.map_map]
      exact List.map_congr_left fun e _ => congrArg Entry.id (hentry e)
    rw [hids]
    exact h.once
  · refine List.pairwise_map.mpr (h.realTime.imp fun hab => ?_)
    rwa [hentry, hentry]
  · by_cases hut : u = t
    · subst hut
      rw [Function.update_self]
      refine ⟨⟨e.keep id, List.mem_map_of_mem he, ?_, ?_, congrArg Entry.result (hentry e)⟩,
        hunreturned⟩
      · rw [Slot.keep, if_pos hslot]
      · rw [hentry, hslot]
    · rw [Function.update_of_ne hut]
      have hok := h.phases u
      cases hp : phase u with
      | idle => trivial
      | called id' op' =>
        rw [hp] at hok
        refine ⟨hok.1, fun e' he' hkept => ?_, hok.2.2⟩
        obtain ⟨e, he, rfl⟩ := List.mem_map.mp he'
        rw [hentry]
        unfold Slot.keep at hkept
        split at hkept
        · next heq =>
          rintro rfl
          exact hother id rfl u hut (by rw [hp, ← heq]; rfl)
        · exact hok.2.1 e he hkept
      | done id' r' =>
        rw [hp] at hok
        exact ⟨hstays hok.1, hok.2⟩

/-- The operation of a thread takes effect, behind all that did so before. -/
theorem effect (h : Recorded events slots phase) (ht : phase t = .called id op)
    (hnew : ∀ e ∈ slots, e.id ≠ id) (r : R) :
    Recorded events (slots ++ [⟨⟨id, t, op, r⟩, true⟩]) (Function.update phase t (.done id r)) := by
  have hok := h.phases t
  rw [ht] at hok
  have hput := (h.put hok.1 hnew hok.2.2 r).keep ht
    (List.mem_append_right _ (List.mem_singleton_self _)) rfl
  have hsame : slots.map (Slot.keep id) = slots :=
    (List.map_congr_left fun e he => if_neg (hnew e he)).trans (List.map_id slots)
  rwa [List.map_append, hsame, List.map_singleton, Slot.keep, if_pos rfl] at hput

/-- The operation of a thread returns. -/
theorem ret (h : Recorded events slots phase) (ht : phase t = .done id r) :
    Recorded (events ++ [.ret id r]) slots (Function.update phase t .idle) := by
  have hid : (phase t).id = some id := by rw [ht]; rfl
  have hdone := h.phases t
  rw [ht] at hdone
  have hcall {id' : ℕ} {u : T} {op : Op} (he : .call id' u op ∈ events ++ [.ret id r]) :
      .call id' u op ∈ events := by simpa using he
  -- a thread in another operation has not returned from it either
  have hret {u : T} {id' : ℕ} (hut : u ≠ t) (hu : (phase u).id = some id')
      (hnot : ∀ r, .ret id' r ∉ events) : ∀ r', .ret id' r' ∉ events ++ [.ret id r] := by
    intro r' hr
    rcases List.mem_append.mp hr with hr | hr
    · exact hnot r' hr
    · cases List.mem_singleton.mp hr
      exact hut (h.apart u t id hu hid)
  refine ⟨fun id' u op hu => ?_, fun e he => List.mem_append_left _ (h.called e he), h.once,
    fun id' r' hr => ?_, ?_, fun u => ?_, h.apart_update nofun⟩
  · rw [List.length_append, List.length_singleton]
    exact Nat.lt_succ_of_lt (h.fresh id' u op (hcall hu))
  · rcases List.mem_append.mp hr with hr | hr
    · exact h.returned id' r' hr
    · cases List.mem_singleton.mp hr
      exact hdone.1
  · exact h.realTime.imp fun hab hprec => hab (hprec.of_concat fun _ _ => nofun)
  · by_cases hut : u = t
    · subst hut
      rw [Function.update_self]
      trivial
    · rw [Function.update_of_ne hut]
      have hok := h.phases u
      cases hp : phase u with
      | idle => trivial
      | called id' op =>
        rw [hp] at hok
        exact ⟨List.mem_append_left _ hok.1, hok.2.1, hret hut (by rw [hp]; rfl) hok.2.2⟩
      | done id' r' =>
        rw [hp] at hok
        exact ⟨hok.1, hret hut (by rw [hp]; rfl) hok.2⟩

end Recorded

end Linearizability
