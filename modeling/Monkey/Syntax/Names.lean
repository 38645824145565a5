import Monkey.Syntax.WellFormed

/-!
# The names of a tree

A name occurs in a tree as an identifier, as what a `let` binds, or as a
parameter. Whatever is required of names is required of all of these alike.
-/

set_option autoImplicit false

namespace Monkey

mutual

/-- All names that occur in the expression, used or bound, are of the kind required. -/
def Expr.Names (kind : String → Prop) : Expr → Prop
  | .ident name => kind name
  | .int _ => True
  | .bool _ => True
  | .prefixOp _ e => e.Names kind
  | .infixOp _ a b => a.Names kind ∧ b.Names kind
  | .cond c a none => c.Names kind ∧ Stmt.AllNames kind a
  | .cond c a (some b) => c.Names kind ∧ Stmt.AllNames kind a ∧ Stmt.AllNames kind b
  | .fn ps body => (∀ name ∈ ps, kind name) ∧ Stmt.AllNames kind body
  | .call f es => f.Names kind ∧ Expr.AllNames kind es

def Expr.AllNames (kind : String → Prop) : List Expr → Prop
  | [] => True
  | e :: es => e.Names kind ∧ Expr.AllNames kind es

def Stmt.Names (kind : String → Prop) : Stmt → Prop
  | .bind name e => kind name ∧ e.Names kind
  | .ret none => True
  | .ret (some e) => e.Names kind
  | .expr e => e.Names kind
  | .block body => Stmt.AllNames kind body

def Stmt.AllNames (kind : String → Prop) : List Stmt → Prop
  | [] => True
  | s :: ss => s.Names kind ∧ Stmt.AllNames kind ss

end

def anyName : String → Prop := fun _ => True

mutual

theorem Expr.names_any : (e : Expr) → e.Names anyName
  | .ident _ => trivial
  | .int _ => trivial
  | .bool _ => trivial
  | .prefixOp _ e => Expr.names_any e
  | .infixOp _ a b => ⟨Expr.names_any a, Expr.names_any b⟩
  | .cond c a none => ⟨Expr.names_any c, Stmt.allNames_any a⟩
  | .cond c a (some b) => ⟨Expr.names_any c, Stmt.allNames_any a, Stmt.allNames_any b⟩
  | .fn _ body => ⟨fun _ _ => trivial, Stmt.allNames_any body⟩
  | .call f es => ⟨Expr.names_any f, Expr.allNames_any es⟩

theorem Expr.allNames_any : (es : List Expr) → Expr.AllNames anyName es
  | [] => trivial
  | e :: es => ⟨Expr.names_any e, Expr.allNames_any es⟩

theorem Stmt.names_any : (s : Stmt) → s.Names anyName
  | .bind _ e => ⟨trivial, Expr.names_any e⟩
  | .ret none => trivial
  | .ret (some e) => Expr.names_any e
  | .expr e => Expr.names_any e
  | .block body => Stmt.allNames_any body

theorem Stmt.allNames_any : (ss : List Stmt) → Stmt.AllNames anyName ss
  | [] => trivial
  | s :: ss => ⟨Stmt.names_any s, Stmt.allNames_any ss⟩

end

mutual

theorem Expr.names_of_wellFormed : (e : Expr) → e.wellFormed = true →
    e.Names fun name => isName name = true
  | .ident _, h => h
  | .int _, _ => trivial
  | .bool _, _ => trivial
  | .prefixOp _ e, h => by
    simp only [Expr.wellFormed, Bool.and_eq_true] at h
    exact Expr.names_of_wellFormed e h.2
  | .infixOp _ a b, h => by
    simp only [Expr.wellFormed, Bool.and_eq_true] at h
    exact ⟨Expr.names_of_wellFormed a h.1.2, Expr.names_of_wellFormed b h.2⟩
  | .cond c a none, h => by
    simp only [Expr.wellFormed, Bool.and_eq_true] at h
    exact ⟨Expr.names_of_wellFormed c h.1, Stmt.allNames_of_wellFormed a h.2⟩
  | .cond c a (some b), h => by
    simp only [Expr.wellFormed, Bool.and_eq_true] at h
    exact ⟨Expr.names_of_wellFormed c h.1.1, Stmt.allNames_of_wellFormed a h.1.2,
      Stmt.allNames_of_wellFormed b h.2⟩
  | .fn ps body, h => by
    simp only [Expr.wellFormed, Bool.and_eq_true] at h
    exact ⟨List.all_eq_true.1 h.1, Stmt.allNames_of_wellFormed body h.2⟩
  | .call f es, h => by
    simp only [Expr.wellFormed, Bool.and_eq_true] at h
    exact ⟨Expr.names_of_wellFormed f h.1, Expr.allNames_of_wellFormed es h.2⟩

theorem Expr.allNames_of_wellFormed : (es : List Expr) → Expr.allWellFormed es = true →
    Expr.AllNames (fun name => isName name = true) es
  | [], _ => trivial
  | e :: es, h => by
    simp only [Expr.allWellFormed, Bool.and_eq_true] at h
    exact ⟨Expr.names_of_wellFormed e h.1, Expr.allNames_of_wellFormed es h.2⟩

theorem Stmt.names_of_wellFormed : (s : Stmt) → s.wellFormed = true →
    s.Names fun name => isName name = true
  | .bind _ e, h => by
    simp only [Stmt.wellFormed, Bool.and_eq_true] at h
    exact ⟨h.1, Expr.names_of_wellFormed e h.2⟩
  | .ret none, _ => trivial
  | .ret (some e), h => Expr.names_of_wellFormed e h
  | .expr e, h => Expr.names_of_wellFormed e h
  | .block _, h => nomatch h

theorem Stmt.allNames_of_wellFormed : (ss : List Stmt) → Stmt.allWellFormed ss = true →
    Stmt.AllNames (fun name => isName name = true) ss
  | [], _ => trivial
  | s :: ss, h => by
    simp only [Stmt.allWellFormed, Bool.and_eq_true] at h
    exact ⟨Stmt.names_of_wellFormed s h.1, Stmt.allNames_of_wellFormed ss h.2⟩

end

end Monkey
