import Monkey.Proofs.PlainScopes

/-!
# Where wrapped values surface

A call, and a program, takes one wrapper off the value of its body. A value that
carries two wrappers therefore comes out of it still wrapped: the caller takes it
for a `return` of its own and stops, or the program shows it as its value. That
happens exactly if some `return` on the way has an operand that is itself on its
way out.
-/

set_option autoImplicit false

namespace Monkey

/-- A call yields a wrapped value. -/
def Event.Escapes : Event → Prop
  | .left _ (.ok v) => v.isReturned = true
  | _ => False

/-- A `return` puts a wrapper around a wrapped value. -/
def Event.Rewraps : Event → Prop
  | .returning v => v.isReturned = true
  | _ => False

def Escaped (es : List Event) : Prop := ∃ event ∈ es, event.Escapes

def Rewrapped (es : List Event) : Prop := ∃ event ∈ es, event.Rewraps

@[simp]
theorem escaped_append (es fs : List Event) : Escaped (es ++ fs) ↔ Escaped es ∨ Escaped fs := by
  simp only [Escaped, List.mem_append, or_and_right, exists_or]

@[simp]
theorem escaped_cons (event : Event) (es : List Event) :
    Escaped (event :: es) ↔ event.Escapes ∨ Escaped es := by
  simp [Escaped]

@[simp]
theorem escaped_nil : ¬Escaped [] := by simp [Escaped]

@[simp]
theorem rewrapped_append (es fs : List Event) :
    Rewrapped (es ++ fs) ↔ Rewrapped es ∨ Rewrapped fs := by
  simp only [Rewrapped, List.mem_append, or_and_right, exists_or]

@[simp]
theorem rewrapped_cons (event : Event) (es : List Event) :
    Rewrapped (event :: es) ↔ event.Rewraps ∨ Rewrapped es := by
  simp [Rewrapped]

@[simp]
theorem rewrapped_nil : ¬Rewrapped [] := by simp [Rewrapped]

theorem Value.Plain.not_returned {rule : LiteralRule} {count : Nat} {v : Value}
    (h : v.Plain rule count) : v.isReturned = false := by
  cases v with
  | returned v => exact h.elim
  | _ => rfl

theorem Value.isReturned_iff (v : Value) : v.isReturned = true ↔ ∃ w, v = .returned w := by
  cases v <;> simp [isReturned]

structure Log where
  count : Nat
  events : List Event

/-- A wrapper has been put around a wrapped value if and only if that has come out of a call. -/
def Log.Balanced (log : Log) : Prop := Rewrapped log.events ↔ Escaped log.events

theorem Log.Balanced.quiet {log : Log} (h : log.Balanced) (count : Nat) {event : Event}
    (hrewraps : ¬event.Rewraps) (hescapes : ¬event.Escapes) :
    Balanced ⟨count, log.events ++ [event]⟩ := by
  have hiff : Rewrapped log.events ↔ Escaped log.events := h
  simp [Balanced, hiff, hrewraps, hescapes]

namespace Invariant

variable {rule : LiteralRule}

/-- As long as no value is on its way out, the log is balanced; a value on its way out in
two wrappers stands for a call that is still to yield it. -/
def wraps (rule : LiteralRule) : Invariant Log where
  kept := fun w es u => w.count ≤ u.count ∧ u.events = w.events ++ es
  cut := fun w es u => w.count ≤ u.count ∧ u.events = w.events ++ es
  fits := fun w s => s.size = w.count ∧ s.Sound rule
  ready := Log.Balanced
  plain := fun w v => v.Plain rule w.count
  out := fun _ w v => v.Sound rule w.count ∧
    (Rewrapped w.events ↔ Escaped w.events ∨ v.isReturned = true)
  bad := fun _ => True
  kept_nil := fun w => ⟨Nat.le_refl _, (List.append_nil _).symm⟩
  kept_append := by
    rintro w u v es fs ⟨hle, heq⟩ ⟨hle', heq'⟩
    exact ⟨Nat.le_trans hle hle', by rw [heq', heq, List.append_assoc]⟩
  cut_nil := fun w => ⟨Nat.le_refl _, (List.append_nil _).symm⟩
  cut_append := by
    rintro w u v es fs ⟨hle, heq⟩ ⟨hle', heq'⟩
    exact ⟨Nat.le_trans hle hle', by rw [heq', heq, List.append_assoc]⟩
  plain_kept := fun hkept h => h.mono hkept.1
  atom := Value.Atom.plain
  out_of_plain := fun _ h => h.elim
  typed := fun _ => trivial

theorem wraps_unwrapped {w : Log} {v : Value} (h : (wraps rule).unwrapped w v) :
    v.Sound rule w.count ∧ (Rewrapped w.events ↔ Escaped w.events ∨ v.isReturned = true) := by
  rcases h with h | ⟨hw, hv⟩
  · exact h
  · have hplain : v.Plain rule w.count := hv
    have hbalanced : Rewrapped w.events ↔ Escaped w.events := hw
    exact ⟨hplain.sound, by simp [hbalanced, hplain.not_returned]⟩

theorem wraps_get {w : Log} {s : Scopes} (hs : (wraps rule).fits w s) {scope : ScopeId}
    {name : String} {v : Value} (hv : s.get scope name = some v) : v.Plain rule w.count := by
  have hplain := hs.2.get hv
  rwa [hs.1] at hplain

theorem wraps_binds {w : Log} (hw : w.Balanced) (scope : ScopeId) :
    (wraps rule).Binds w scope := by
  rintro name v s hv ⟨hsize, hs⟩
  have hplain : v.Plain rule s.size := hsize ▸ hv
  exact ⟨⟨w.count, w.events ++ [.bound scope name v]⟩, ⟨Nat.le_refl _, rfl⟩,
    ⟨(size_set s scope name v).trans hsize, hs.set hplain⟩, hw.quiet _ id id⟩

theorem wraps_returning {w : Log} {v : Value} (h : (wraps rule).value true w v)
    (inside : Bool) : (wraps rule).out inside ⟨w.count, w.events ++ [.returning v]⟩ v := by
  -- Around a value that is on its way out, the wrapper is a second one.
  cases hv : v.isReturned with
  | true =>
    cases v with
    | returned v =>
      have hsound : v.Sound rule w.count := h.1
      exact ⟨hsound, by simp [Event.Rewraps, Value.isReturned]⟩
    | _ => cases hv
  | false =>
    have hplain : v.Plain rule w.count ∧ w.Balanced := by
      cases v with
      | returned v => cases hv
      | _ => exact ⟨h.2, h.1⟩
    have hbalanced : Rewrapped w.events ↔ Escaped w.events := hplain.2
    exact ⟨hplain.1.sound, by simp [hbalanced, hv, Event.Rewraps, Event.Escapes]⟩

theorem wraps_places (rule : LiteralRule) :
    (wraps rule).Places (fun w scope => scope < w.count ∧ w.Balanced)
      fun _ => literalCode rule where
  ready := And.right
  later := fun h hkept hready => ⟨Nat.lt_of_lt_of_le h.1 hkept.1, hready⟩
  operand := id
  lookup := fun _ _ hs => ⟨fun _ hv => wraps_get hs hv, trivial⟩
  binds := fun h _ => wraps_binds h.2 _
  literal := fun {_ w scope site ps body _} h he hs =>
    ⟨⟨w.count, w.events ++ [.created scope site ps body]⟩, ⟨Nat.le_refl _, rfl⟩, hs,
      h.2.quiet _ id id, h.1, he⟩
  returning := fun {_ w _ _ v _} _ hv hs =>
    ⟨⟨w.count, w.events ++ [.returning v]⟩, ⟨Nat.le_refl _, rfl⟩, hs, wraps_returning hv _⟩

theorem wraps_called {w : Log} {v : Value} (h : (wraps rule).unwrapped w v) (inside : Bool)
    (scope : ScopeId) :
    (wraps rule).value inside ⟨w.count, w.events ++ [.left scope (.ok v)]⟩ v := by
  -- The wrapper that a call takes off may leave another one: then the value escapes.
  obtain ⟨hsound, hiff⟩ := wraps_unwrapped h
  cases v with
  | returned v =>
    refine ⟨hsound, ?_⟩
    have hrewrapped : Rewrapped w.events := hiff.2 (.inr rfl)
    simp [hrewrapped, Event.Rewraps, Event.Escapes, Value.isReturned]
  | _ =>
    refine ⟨?_, hsound⟩
    simpa [wraps, Log.Balanced, Event.Rewraps, Event.Escapes, Value.isReturned] using hiff

theorem wraps_encloses (w : Log) (scope outer : ScopeId) :
    (wraps rule).Encloses w scope outer ⟨w.count + 1, w.events ++ [.entered scope outer]⟩ := by
  constructor
  · rintro u s es v ⟨hle, hevents⟩ hs hv
    refine ⟨⟨u.count, u.events ++ [.left scope (.ok v)]⟩, ⟨Nat.le_of_succ_le hle, ?_⟩, hs,
      fun inside => wraps_called hv inside scope⟩
    simp [hevents]
  · rintro u s es e ⟨hle, hevents⟩ hs hu _
    refine ⟨⟨u.count, u.events ++ [.left scope (.error e)]⟩, ⟨Nat.le_of_succ_le hle, ?_⟩, hs,
      Log.Balanced.quiet hu _ id id⟩
    simp [hevents]
  · rintro u es ⟨hle, hevents⟩ hu
    exact ⟨u, ⟨Nat.le_of_succ_le hle, by simp [hevents]⟩, hu⟩

theorem wraps_entries (rule : LiteralRule) :
    (wraps rule).Entries (fun w scope => scope < w.count ∧ w.Balanced)
      fun _ => literalCode rule where
  toPlaces := wraps_places rule
  opened := by
    rintro ⟨_, events⟩ f s hw hf ⟨rfl, hs⟩
    have hsize := size_create s (some f.scope)
    have hcreated : (s.create (some f.scope)).Sound rule :=
      hs.create fun _ h => Option.some.inj h ▸ hf.1
    exact ⟨⟨s.size + 1, events ++ [.entered s.size f.scope]⟩,
      ⟨Nat.lt_succ_self _, Log.Balanced.quiet hw _ id id⟩, ⟨hsize, hcreated⟩, hf.2.2,
      fun v hv => hv.mono (Nat.le_succ _), wraps_encloses _ _ _⟩
  assigns := fun h => wraps_binds h.2 _

end Invariant

/-- A program puts a wrapper around a wrapped value if and only if a wrapped value surfaces: as
the value of a call, or as its own. -/
theorem Tracing.rewrapped_program {rule : LiteralRule} {s : Scopes} (hs : s.Sound rule)
    (limit number : Nat) {p : Program} {scope : ScopeId} (hscope : scope < s.size)
    (hp : Stmt.AllLiterals rule ⟨number, []⟩ p) :
    Rewrapped (program limit p number scope s).events ↔
      Escaped (program limit p number scope s).events ∨
        ∃ v after, (program limit p number scope s).outcome =
          .done (some (.returned v)) after := by
  have hstart : Log.Balanced ⟨s.size, []⟩ := by simp [Log.Balanced]
  have hrun := Invariant.keeps_program (Invariant.wraps_entries rule) limit ⟨hscope, hstart⟩ hp s
    ⟨rfl, hs⟩
  generalize program limit p number scope s = run at hrun
  cases hrun with
  | done u r after es hkept _ hr =>
    have hevents : u.events = es := by simpa using hkept.2
    cases r with
    | none =>
      have hbalanced : Rewrapped u.events ↔ Escaped u.events := hr
      simpa [hevents] using hbalanced
    | some v =>
      have hiff := (Invariant.wraps_unwrapped hr).2
      rw [hevents, v.isReturned_iff] at hiff
      simpa using hiff
  | failed u e after es hkept _ hready =>
    have hevents : u.events = es := by simpa using hkept.2
    have hbalanced : Rewrapped u.events ↔ Escaped u.events := hready
    simpa [hevents] using hbalanced
  | exhausted u es hcut hready =>
    have hevents : u.events = es := by simpa using hcut.2
    have hbalanced : Rewrapped u.events ↔ Escaped u.events := hready
    simpa [hevents] using hbalanced

end Monkey
