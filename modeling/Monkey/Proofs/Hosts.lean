import Monkey.Proofs.Conversation
import Monkey.Proofs.FunctionOrigins
import Monkey.Proofs.LiteralNodes
import Monkey.Proofs.ScopeGraph

/-!
# Hosts

A host is a program that the interpreter is a part of. It parses sources, keeps the
programs, creates scopes, and evaluates any of its programs in any of its scopes, the
same one again if it likes. In all that it comes to hold, the register of functions is
right. A conversation, in which every line is parsed and evaluated once, is one of the
things that a host can do.
-/

set_option autoImplicit false

namespace Monkey

/-- What a program holds that the interpreter is a part of: the programs that it has parsed,
the scopes, and the values that it has got. The register is only written to. -/
structure Host where
  programs : Array Program
  scopes : Scopes
  values : List Value
  register : Register

namespace Host

def empty : Host := ⟨#[], #[], [], .empty⟩

inductive Action where
  /-- Parses a source. What can be read of it is kept, also if there are errors. -/
  | parse (source : Bytes)
  | root
  | enclose (outer : ScopeId)
  /-- Evaluates a program that has been parsed, perhaps not for the first time. -/
  | evaluate (limit number : Nat) (scope : ScopeId)

def parse (host : Host) (source : Bytes) : Host :=
  ⟨host.programs.push source.statements, host.scopes, host.values, host.register⟩

def evaluate? (host : Host) (limit number : Nat) (p : Program) (scope : ScopeId) : Option Host :=
  let events := (Tracing.program limit p number scope host.scopes).events
  let register := host.register.noteAll events
  match p.eval limit number scope host.scopes with
  | .done value scopes => some ⟨host.programs, scopes, value.toList ++ host.values, register⟩
  | .failed _ scopes => some ⟨host.programs, scopes, host.values, register⟩
  | .exhausted => none

/-- There is nothing after an action that refers to what is not there, or is cut off. -/
def perform? (host : Host) : Action → Option Host
  | .parse source => some (host.parse source)
  | .root => some ⟨host.programs, host.scopes.create none, host.values, host.register⟩
  | .enclose outer =>
    if outer < host.scopes.size then
      some ⟨host.programs, host.scopes.create (some outer), host.values, host.register⟩
    else none
  | .evaluate limit number scope =>
    if scope < host.scopes.size then
      host.programs[number]?.bind fun p => host.evaluate? limit number p scope
    else none

def performAll? (host : Host) : List Action → Option Host
  | [] => some host
  | action :: rest => (host.perform? action).bind fun later => later.performAll? rest

structure Sound (table : Array Program) (host : Host) : Prop where
  describes : host.register.Describes (standsIn table) host.scopes
  idle : host.register.active = []
  values : ∀ v ∈ host.values, v.Registered host.register

def Covered (host : Host) (table : Array Program) : Prop :=
  ∀ (number : Nat) (p : Program), host.programs[number]? = some p → table[number]? = some p

section

variable {table : Array Program} {host later : Host}

theorem sound_empty (table : Array Program) : empty.Sound table :=
  ⟨⟨nofun, nofun, nofun, nofun, nofun⟩, rfl, nofun⟩

theorem evaluate_programs {limit number : Nat} {p : Program} {scope : ScopeId}
    (hlater : host.evaluate? limit number p scope = some later) :
    later.programs = host.programs := by
  unfold evaluate? at hlater
  split at hlater <;> cases hlater <;> rfl

theorem evaluate_sound {limit number : Nat} {p : Program} {scope : ScopeId}
    (h : host.Sound table) (hp : table[number]? = some p)
    (hlater : host.evaluate? limit number p scope = some later) : later.Sound table := by
  obtain ⟨hkept, hresult⟩ := Tracing.registered_program h.describes h.idle limit number scope
    (Program.literals_stand hp)
  have hplain : (Tracing.program limit p number scope host.scopes).outcome =
      p.eval limit number scope host.scopes :=
    congrFun (Tracing.plain_program limit p number scope) host.scopes
  rw [hplain] at hkept hresult
  unfold evaluate? at hlater
  split at hlater
  · next value after heval =>
    cases hlater
    obtain ⟨hgrows, hidle, hdescribes⟩ := hkept after (by rw [heval]; rfl)
    refine ⟨hdescribes, hidle, fun v hv => ?_⟩
    rcases List.mem_append.1 hv with hv | hv
    · rw [Option.mem_toList.1 hv] at heval
      exact hresult v after heval
    · exact hgrows.registered (h.values v hv)
  · next error after heval =>
    cases hlater
    obtain ⟨hgrows, hidle, hdescribes⟩ := hkept after (by rw [heval]; rfl)
    exact ⟨hdescribes, hidle, fun v hv => hgrows.registered (h.values v hv)⟩
  · cases hlater

theorem perform_covered {action : Action} (hlater : host.perform? action = some later)
    (htable : later.Covered table) : host.Covered table := by
  intro number p hp
  apply htable
  cases action with
  | parse source =>
    cases hlater
    have hlt := (Array.getElem?_eq_some_iff.1 hp).1
    rwa [parse, Array.getElem?_push, if_neg (Nat.ne_of_lt hlt)]
  | root =>
    cases hlater
    exact hp
  | enclose outer =>
    simp only [perform?, Option.ite_none_right_eq_some] at hlater
    obtain ⟨_, hlater⟩ := hlater
    cases hlater
    exact hp
  | evaluate limit number scope =>
    simp only [perform?, Option.ite_none_right_eq_some, Option.bind_eq_some_iff] at hlater
    obtain ⟨_, q, _, hrun⟩ := hlater
    rwa [evaluate_programs hrun]

theorem perform_sound {action : Action} (h : host.Sound table) (htable : host.Covered table)
    (hlater : host.perform? action = some later) : later.Sound table := by
  cases action with
  | parse source =>
    cases hlater
    exact ⟨h.describes, h.idle, h.values⟩
  | root =>
    cases hlater
    exact ⟨h.describes.createScope none, h.idle, h.values⟩
  | enclose outer =>
    simp only [perform?, Option.ite_none_right_eq_some] at hlater
    obtain ⟨_, hlater⟩ := hlater
    cases hlater
    exact ⟨h.describes.createScope (some outer), h.idle, h.values⟩
  | evaluate limit number scope =>
    simp only [perform?, Option.ite_none_right_eq_some, Option.bind_eq_some_iff] at hlater
    obtain ⟨_, p, hp, hrun⟩ := hlater
    exact evaluate_sound h (htable number p hp) hrun

theorem performAll_sound {actions : List Action} (hlater : host.performAll? actions = some later)
    (htable : later.Covered table) (h : host.Covered table → host.Sound table) :
    later.Sound table := by
  -- The induction is on the actions; what is kept is said about the programs at the end.
  induction actions generalizing host with
  | nil =>
    cases hlater
    exact h htable
  | cons action rest ih =>
    obtain ⟨middle, hmiddle, hrest⟩ := Option.bind_eq_some_iff.1 hlater
    refine ih hrest fun hcovered => ?_
    have hhost := perform_covered hmiddle hcovered
    exact perform_sound (h hhost) hhost hmiddle

theorem performAll_append (host : Host) (actions rest : List Action) :
    host.performAll? (actions ++ rest) =
      (host.performAll? actions).bind fun later => later.performAll? rest := by
  induction actions generalizing host with
  | nil => rfl
  | cons action actions ih =>
    simp only [List.cons_append, performAll?, Option.bind_assoc]
    congr 1
    funext middle
    exact ih middle

end

/-! ### Sessions -/

structure Mirrors (host : Host) (session : Session) : Prop where
  scopes : host.scopes = session.scopes
  programs : host.programs.size = session.programs

/-- Actions lead from the host to one that mirrors the session, has kept its values, and
has got the values in the replies. -/
def Reaches (host : Host) (session : Session) (replies : List Reply) : Prop :=
  ∃ actions later, host.performAll? actions = some later ∧ later.Mirrors session ∧
    ∀ v, v ∈ host.values ∨ .finished (some v) ∈ replies → v ∈ later.values

section

variable {limit : Nat} {scope : ScopeId} {host : Host} {session next first last : Session}

theorem performAll_line (limit : Nat) (hscope : scope < host.scopes.size) (line : Bytes) :
    host.performAll? [.parse line, .evaluate limit host.programs.size scope] =
      (host.parse line).evaluate? limit host.programs.size line.statements scope := by
  simp [performAll?, perform?, parse, hscope]

theorem interpret_reaches {line : Bytes} {reply : Reply} (h : host.Mirrors session)
    (hscope : scope < session.scopes.size)
    (hreply : session.interpret limit line scope = some (reply, next)) :
    host.Reaches next [reply] := by
  unfold Session.interpret at hreply
  split at hreply
  · cases hreply
    exact ⟨[], host, rfl, h, by simp⟩
  · next program hprogram =>
    obtain ⟨rfl, _⟩ := Program.ofBytes_ok hprogram
    have hperform := performAll_line limit (h.scopes.symm ▸ hscope) line
    have hsize : (host.parse line).programs.size = session.programs + 1 := by
      simp [parse, h.programs]
    rw [evaluate?, h.programs, show (host.parse line).scopes = session.scopes from h.scopes]
      at hperform
    unfold Session.evaluate at hreply
    split at hreply
    · next value after heval =>
      cases hreply
      simp only [heval] at hperform
      refine ⟨_, _, hperform, ⟨rfl, hsize⟩, fun v hv => ?_⟩
      rcases hv with hv | hv
      · exact List.mem_append_right _ hv
      · cases List.mem_singleton.1 hv
        exact List.mem_append_left _ List.mem_cons_self
    · next error after heval =>
      cases hreply
      simp only [heval] at hperform
      exact ⟨_, _, hperform, ⟨rfl, hsize⟩, fun v hv => hv.resolve_right (by simp)⟩
    · cases hreply

theorem interpret_kept {line : Bytes} {reply : Reply} (hscope : scope < session.scopes.size)
    (hreply : session.interpret limit line scope = some (reply, next)) :
    scope < next.scopes.size := by
  unfold Session.interpret at hreply
  split at hreply
  · cases hreply
    exact hscope
  · obtain ⟨now, hnow, _⟩ :=
      Session.evaluate_extends hreply scope _ (Array.getElem?_eq_getElem hscope)
    exact (Array.getElem?_eq_some_iff.1 hnow).1

/-- Whatever a conversation leads to, a host can come to as well. -/
theorem converses_reaches {lines : List Bytes} {replies : List Reply}
    (h : first.Converses limit scope lines replies last) (hhost : host.Mirrors first)
    (hscope : scope < first.scopes.size) :
    host.Reaches last replies := by
  induction h generalizing host with
  | done session => exact ⟨[], host, rfl, hhost, by simp⟩
  | turn line reply rest replies first next last hline _ ih =>
    obtain ⟨actions, middle, hmiddle, hnext, hvalues⟩ := interpret_reaches hhost hscope hline
    obtain ⟨others, later, hlater, hlast, hkept⟩ := ih hnext (interpret_kept hscope hline)
    refine ⟨actions ++ others, later, ?_, hlast, fun v hv => hkept v ?_⟩
    · rw [performAll_append, hmiddle]
      exact hlater
    · rw [List.mem_cons, ← or_assoc] at hv
      exact hv.imp_left fun h => hvalues v (h.imp_right List.mem_singleton.2)

end

end Host

end Monkey
