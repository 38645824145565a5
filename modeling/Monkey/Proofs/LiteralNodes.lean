import Monkey.Proofs.PlainScopes

/-!
# The literal at a node

The place of a node tells the way to it from the root of its program, so that a
function literal can be looked up at its place. Of the programs in a table, every
literal is found where it stands.
-/

set_option autoImplicit false

namespace Monkey

mutual

/-- The parameters and the body of the function literal that the path leads to, the
first turn first. -/
def Expr.literalAt? : Expr → List Nat → Option (List String × Block)
  | .fn ps body, [] => some (ps, body)
  | .prefixOp _ e, 0 :: path => e.literalAt? path
  | .infixOp _ e _, 0 :: path => e.literalAt? path
  | .infixOp _ _ f, 1 :: path => f.literalAt? path
  | .cond c _ _, 0 :: path => c.literalAt? path
  | .cond _ a _, 1 :: path => Stmt.literalIn? a path
  | .cond _ _ (some b), 2 :: path => Stmt.literalIn? b path
  | .fn _ body, 0 :: path => Stmt.literalIn? body path
  | .call f _, 0 :: path => f.literalAt? path
  | .call _ es, 1 :: path => Expr.literalIn? es path
  | _, _ => none

def Expr.literalIn? : List Expr → List Nat → Option (List String × Block)
  | e :: _, 0 :: path => e.literalAt? path
  | _ :: es, 1 :: path => Expr.literalIn? es path
  | _, _ => none

def Stmt.literalAt? : Stmt → List Nat → Option (List String × Block)
  | .bind _ e, 0 :: path => e.literalAt? path
  | .ret (some e), 0 :: path => e.literalAt? path
  | .expr e, 0 :: path => e.literalAt? path
  | .block body, 0 :: path => Stmt.literalIn? body path
  | _, _ => none

def Stmt.literalIn? : List Stmt → List Nat → Option (List String × Block)
  | s :: _, 0 :: path => s.literalAt? path
  | _ :: ss, 1 :: path => Stmt.literalIn? ss path
  | _, _ => none

end

def Site.literal? (programs : Array Program) (site : Site) : Option (List String × Block) :=
  programs[site.program]?.bind fun program => Stmt.literalIn? program site.path.reverse

def standsIn (programs : Array Program) : LiteralRule := fun site ps body =>
  site.literal? programs = some (ps, body)

section

variable {programs : Array Program}

/-- What is found at the places from `site` on is what `find` finds in the part there. -/
def Site.Holds (programs : Array Program) (site : Site)
    (find : List Nat → Option (List String × Block)) : Prop :=
  ∀ path, programs[site.program]?.bind (Stmt.literalIn? · (site.path.reverse ++ path)) = find path

theorem Site.Holds.child {site : Site} {find part : List Nat → Option (List String × Block)}
    (h : site.Holds programs find) (turn : Nat) (hpart : ∀ path, find (turn :: path) = part path) :
    (site.child turn).Holds programs part := by
  intro path
  rw [← hpart, ← h]
  simp [Site.child]

theorem Site.Holds.literal {site : Site} {find : List Nat → Option (List String × Block)}
    (h : site.Holds programs find) : site.literal? programs = find [] := by
  rw [← h []]
  simp [Site.literal?]

mutual

theorem Expr.literals_stand : (e : Expr) → (site : Site) → site.Holds programs e.literalAt? →
    e.Literals (standsIn programs) site
  | .ident _, _, _ => trivial
  | .int _, _, _ => trivial
  | .bool _, _, _ => trivial
  | .prefixOp _ e, _, h => Expr.literals_stand e _ (h.child 0 fun _ => rfl)
  | .infixOp _ e f, _, h =>
    ⟨Expr.literals_stand e _ (h.child 0 fun _ => rfl),
      Expr.literals_stand f _ (h.child 1 fun _ => rfl)⟩
  | .cond c a none, _, h =>
    ⟨Expr.literals_stand c _ (h.child 0 fun _ => rfl),
      Stmt.allLiterals_stand a _ (h.child 1 fun _ => rfl)⟩
  | .cond c a (some b), _, h =>
    ⟨Expr.literals_stand c _ (h.child 0 fun _ => rfl),
      Stmt.allLiterals_stand a _ (h.child 1 fun _ => rfl),
      Stmt.allLiterals_stand b _ (h.child 2 fun _ => rfl)⟩
  | .fn _ body, _, h => ⟨h.literal, Stmt.allLiterals_stand body _ (h.child 0 fun _ => rfl)⟩
  | .call f es, _, h =>
    ⟨Expr.literals_stand f _ (h.child 0 fun _ => rfl),
      Expr.allLiterals_stand es _ (h.child 1 fun _ => rfl)⟩

theorem Expr.allLiterals_stand : (es : List Expr) → (site : Site) →
    site.Holds programs (Expr.literalIn? es) → Expr.AllLiterals (standsIn programs) site es
  | [], _, _ => trivial
  | e :: es, _, h =>
    ⟨Expr.literals_stand e _ (h.child 0 fun _ => rfl),
      Expr.allLiterals_stand es _ (h.child 1 fun _ => rfl)⟩

theorem Stmt.literals_stand : (s : Stmt) → (site : Site) → site.Holds programs s.literalAt? →
    s.Literals (standsIn programs) site
  | .bind _ e, _, h => Expr.literals_stand e _ (h.child 0 fun _ => rfl)
  | .ret none, _, _ => trivial
  | .ret (some e), _, h => Expr.literals_stand e _ (h.child 0 fun _ => rfl)
  | .expr e, _, h => Expr.literals_stand e _ (h.child 0 fun _ => rfl)
  | .block body, _, h => Stmt.allLiterals_stand body _ (h.child 0 fun _ => rfl)

theorem Stmt.allLiterals_stand : (ss : List Stmt) → (site : Site) →
    site.Holds programs (Stmt.literalIn? ss) → Stmt.AllLiterals (standsIn programs) site ss
  | [], _, _ => trivial
  | s :: ss, _, h =>
    ⟨Stmt.literals_stand s _ (h.child 0 fun _ => rfl),
      Stmt.allLiterals_stand ss _ (h.child 1 fun _ => rfl)⟩

end

theorem Program.literals_stand {number : Nat} {p : Program} (h : programs[number]? = some p) :
    Stmt.AllLiterals (standsIn programs) ⟨number, []⟩ p := by
  apply Stmt.allLiterals_stand
  intro path
  simp [h]

end

end Monkey
