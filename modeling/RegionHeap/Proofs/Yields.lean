import RegionHeap.Heap
import RegionHeap.Proofs.HeaderBytes

/-!
# What a call yields

`Yields E call h Q` says that `call`, made on the heap `h`, returns with an answer and a heap as `Q`
says, or is stopped by a fault that `E` admits. With `E` empty the call always returns. The rules follow
the small steps that calls are made of; each states what remains to be shown for the rest of the call.
`Silent call` says that the call records nothing, and `Stops call h fault` that it is stopped before it has
changed anything.
-/

set_option autoImplicit false

namespace RegionHeap.Heap

variable {α β : Type} {E : Fault → Prop} {h : Heap}

/-- The call returns as `Q` says, or is stopped by a fault that `E` admits. -/
def Yields (E : Fault → Prop) (call : HeapM α) (h : Heap) (Q : α → Heap → Prop) : Prop :=
  match call h with
  | .ok a h' => Q a h'
  | .error fault _ => E fault

/-- The heap with other bytes in its memory. -/
def withMemory (h : Heap) (memory : Memory) : Heap :=
  { h with space := { h.space with memory } }

/-- The heap with one more event in its log. -/
def logging (h : Heap) (e : Event) : Heap :=
  { h with log := e :: h.log }

@[simp]
theorem memory_withMemory (h : Heap) (m : Memory) : (h.withMemory m).memory = m := rfl

@[simp]
theorem withMemory_withMemory (h : Heap) (m m' : Memory) :
    (h.withMemory m).withMemory m' = h.withMemory m' := rfl

@[simp]
theorem memory_logging (h : Heap) (e : Event) : (h.logging e).memory = h.memory := rfl

/-! ### Consequence and sequence -/

theorem Yields.mono {call : HeapM α} {P Q : α → Heap → Prop} (run : Yields E call h P)
    (imp : ∀ a h', P a h' → Q a h') : Yields E call h Q := by
  unfold Yields at *
  split at run
  · exact imp _ _ run
  · exact run

/-- A call and what follows it. -/
theorem Yields.bind {call : HeapM α} {rest : α → HeapM β} {P : α → Heap → Prop}
    {Q : β → Heap → Prop} (run : Yields E call h P) (next : ∀ a h', P a h' → Yields E (rest a) h' Q) :
    Yields E (call >>= rest) h Q := by
  unfold Yields at run
  split at run
  · next a h' e =>
    have step : (call >>= rest) h = rest a h' := by
      show EStateM.bind call rest h = _
      rw [EStateM.bind, e]
    have := next a h' run
    unfold Yields at *
    rwa [step]
  · next fault h' e =>
    have step : (call >>= rest) h = .error fault h' := by
      show EStateM.bind call rest h = _
      rw [EStateM.bind, e]
    unfold Yields
    rwa [step]

/-- What a call that returned answered and left. -/
theorem Yields.of_ok {call : HeapM α} {Q : α → Heap → Prop} {a : α} {h' : Heap}
    (run : Yields E call h Q) (e : call h = .ok a h') : Q a h' := by
  unfold Yields at run
  rwa [e] at run

/-- The answer and the heap are those of the call itself. -/
theorem Yields.with_run {call : HeapM α} {Q : α → Heap → Prop} (run : Yields E call h Q) :
    Yields E call h fun a h' => call h = .ok a h' ∧ Q a h' := by
  unfold Yields at *
  split at run
  · next e => exact ⟨e, run⟩
  · exact run

/-- A call that no fault may stop returns. -/
theorem Yields.exists_ok {call : HeapM α} {Q : α → Heap → Prop}
    (run : Yields (fun _ => False) call h Q) : ∃ a h', call h = .ok a h' ∧ Q a h' := by
  unfold Yields at run
  split at run
  · next a h' e => exact ⟨a, h', e, run⟩
  · exact run.elim

/-- What a call answers, if it returns. -/
def answer? (call : HeapM α) (h : Heap) : Option α :=
  match call h with
  | .ok a _ => some a
  | .error _ _ => none

theorem answer?_eq_some {call : HeapM α} {a : α} : answer? call h = some a ↔
    ∃ h', call h = .ok a h' := by
  unfold answer?
  split
  · next b h' e => simp [e]
  · next fault h' e => simp [e]

/-! ### Small steps -/

section Steps

variable {Q : α → Heap → Prop}

theorem yields_pure {a : α} : Yields E (pure a : HeapM α) h Q ↔ Q a h := Iff.rfl

theorem yields_get_bind {rest : Heap → HeapM α} :
    Yields E (get >>= rest) h Q ↔ Yields E (rest h) h Q := Iff.rfl

theorem yields_set_bind {h' : Heap} {rest : PUnit → HeapM α} :
    Yields E (set h' >>= rest) h Q ↔ Yields E (rest ()) h' Q := Iff.rfl

theorem yields_set {h' : Heap} {Q : PUnit → Heap → Prop} :
    Yields E (set h' : HeapM PUnit) h Q ↔ Q () h' := Iff.rfl

theorem yields_look_bind {read : Memory → β} {rest : β → HeapM α} :
    Yields E (look read >>= rest) h Q ↔ Yields E (rest (read h.memory)) h Q := Iff.rfl

theorem yields_write_bind {change : Memory → Memory} {rest : Unit → HeapM α} :
    Yields E (write change >>= rest) h Q ↔
      Yields E (rest ()) (h.withMemory (change h.memory)) Q := Iff.rfl

theorem yields_record_bind {e : Event} {rest : Unit → HeapM α} :
    Yields E (record e >>= rest) h Q ↔ Yields E (rest ()) (h.logging e) Q := Iff.rfl

theorem yields_note_bind {event : Block → Event} {b : Nat} {rest : Unit → HeapM α} :
    Yields E (note event b >>= rest) h Q ↔
      Yields E (rest ()) (h.logging (event (Block.read h.memory b))) Q := Iff.rfl

theorem yields_note {event : Block → Event} {b : Nat} {Q : Unit → Heap → Prop} :
    Yields E (note event b) h Q ↔ Q () (h.logging (event (Block.read h.memory b))) := Iff.rfl

/-- A value that is no fault. -/
theorem yields_lift_bind {x : Except Fault β} {b : β} {rest : β → HeapM α} (e : x = .ok b) :
    Yields E (liftM x >>= rest) h Q ↔ Yields E (rest b) h Q := by
  subst e
  exact Iff.rfl

/-- A value that is a fault stops the call. -/
theorem yields_fault_bind {x : Except Fault β} {fault : Fault} {rest : β → HeapM α}
    (e : x = .error fault) (admitted : E fault) : Yields E (liftM x >>= rest) h Q := by
  subst e
  exact admitted

theorem yields_discard {call : HeapM β} {P : Heap → Prop} :
    Yields E (discard call) h (fun _ h' => P h') ↔ Yields E call h fun _ h' => P h' := by
  have e : (discard call : HeapM Unit) h = EStateM.map (fun _ => ()) call h := rfl
  unfold Yields
  rw [e, EStateM.map]
  cases call h <;> exact Iff.rfl

theorem yields_editFreeList {change : ChainM Header.freeHook α} {a : α} {m : Memory}
    {f : FreeList} (e : change (h.memory, h.freeList) = .ok a (m, f)) :
    Yields E (editFreeList change) h Q ↔ Q a { h.withMemory m with freeList := f } := by
  unfold Yields editFreeList within
  rw [e]
  exact Iff.rfl

theorem yields_editCatalogue {change : ChainM Header.catalogueHook α} {a : α} {m : Memory}
    {c : Catalogue} (e : change (h.memory, h.catalogue) = .ok a (m, c)) :
    Yields E (editCatalogue change) h Q ↔ Q a { h.withMemory m with catalogue := c } := by
  unfold Yields editCatalogue within
  rw [e]
  exact Iff.rfl

end Steps

/-! ### Calls that record nothing -/

/-- The call leaves the log of any heap as it was, if it returns. -/
def Silent (call : HeapM α) : Prop :=
  ∀ h, Yields (fun _ => True) call h fun _ h' => h'.log = h.log

theorem Silent.yields {call : HeapM α} {Q : α → Heap → Prop} (silent : Silent call)
    (run : Yields E call h Q) : Yields E call h fun a h' => h'.log = h.log ∧ Q a h' :=
  run.with_run.mono fun _ _ post => ⟨(silent h).of_ok post.1, post.2⟩

theorem silent_editFreeList (change : ChainM Header.freeHook α) : Silent (editFreeList change) := by
  intro h
  unfold Yields editFreeList within
  cases change (h.memory, h.freeList) <;> trivial

theorem silent_editCatalogue (change : ChainM Header.catalogueHook α) :
    Silent (editCatalogue change) := by
  intro h
  unfold Yields editCatalogue within
  cases change (h.memory, h.catalogue) <;> trivial

theorem silent_linkFree (b : Nat) : Silent (linkFree b) := silent_editFreeList _

theorem silent_unlinkFree (b : Nat) : Silent (unlinkFree b) := silent_editFreeList _

theorem silent_linkLast (b : Nat) : Silent (linkLast b) := silent_editCatalogue _

theorem silent_linkAfter (after b : Nat) : Silent (linkAfter after b) := silent_editCatalogue _

theorem silent_unlink (b : Nat) : Silent (unlink b) := silent_editCatalogue _

theorem silent_takeId : Silent takeId := by
  intro h
  unfold takeId
  rw [yields_get_bind]
  cases Word.add h.nextId 1 <;> trivial

/-! ### Calls that are stopped -/

/-- The call is stopped by the fault before it has changed anything. -/
def Stops (call : HeapM α) (h : Heap) (fault : Fault) : Prop :=
  call h = .error fault h

section Stops

variable {fault : Fault}

theorem stops_get_bind {rest : Heap → HeapM α} :
    Stops (get >>= rest) h fault ↔ Stops (rest h) h fault := Iff.rfl

theorem stops_look_bind {read : Memory → β} {rest : β → HeapM α} :
    Stops (look read >>= rest) h fault ↔ Stops (rest (read h.memory)) h fault := Iff.rfl

theorem stops_lift_bind {x : Except Fault β} {b : β} {rest : β → HeapM α} (e : x = .ok b) :
    Stops (liftM x >>= rest) h fault ↔ Stops (rest b) h fault := by
  subst e
  exact Iff.rfl

/-- A value that is a fault stops the call where it is. -/
theorem stops_fault_bind {x : Except Fault β} {rest : β → HeapM α} (e : x = .error fault) :
    Stops (liftM x >>= rest) h fault := by
  subst e
  rfl

/-- What would follow does not matter. -/
theorem Stops.bind {call : HeapM α} (stop : Stops call h fault) (rest : α → HeapM β) :
    Stops (call >>= rest) h fault := by
  show EStateM.bind call rest h = _
  unfold EStateM.bind
  rw [stop]

/-- A call that is stopped does not return. -/
theorem Stops.not_ok {call : HeapM α} {a : α} {h' : Heap} (stop : Stops call h fault) :
    call h ≠ .ok a h' := by
  rw [stop]
  nofun

end Stops

end RegionHeap.Heap
