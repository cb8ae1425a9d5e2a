/-
# Lotbook.Proofs.Categories -- categories are added, and that is all

No edit in a session touches a category that is there, and only adding one makes another
(`Session.perform_categories`). If all categories affect the balance, and so do those that are added
in a session, then all of them do when it ends (`Session.Run.allAffectBalance`).
-/
import Lotbook.Proofs.Frames
import Lotbook.Proofs.Runs

namespace Lotbook

/-- Whether every category affects the balance. -/
def Ledger.AllAffectBalance (l : Ledger) : Prop := ∀ c ∈ l.categories.items, c.affectsBalance = true

instance (l : Ledger) : Decidable l.AllAffectBalance :=
  inferInstanceAs (Decidable (∀ c ∈ l.categories.items, c.affectsBalance = true))

namespace Ledger

/-- Categories are not touched on the way, whatever an edit is made of. -/
theorem Edit.not_touches_categories_of_isPart {edit : Edit} (hpart : edit.isPart = true) :
    .categories ∉ edit.touches := by
  cases edit <;> first | exact absurd hpart Bool.false_ne_true | simp [Edit.touches]

/-- Operations that do not touch the categories keep them, one after the other. -/
theorem Operations.categories {l l₁ : Ledger}
    (hops : Operations (fun _ edit => .categories ∉ edit.touches) l l₁) :
    l₁.categories = l.categories := by
  induction hops with
  | refl => rfl
  | tail _ hlast ih =>
    obtain ⟨edit, hother, hop⟩ := hlast
    exact (hop.untouched.categories hother).trans ih

end Ledger

namespace Session

variable {s s₁ : Session}

/-- Whether a session has the categories that another has. -/
def SameCategories (s s₁ : Session) : Prop := s₁.ledger.categories = s.ledger.categories

/-- Nothing but adding a category changes the categories in a session. -/
theorem perform_categories (hs : s.ledger.Sound) {edit : Edit} {refusal : Option Failure}
    (hedit : s.perform edit = .ok (refusal, s₁))
    (hother : ∀ code affectsBalance action, edit ≠ .addCategory code affectsBalance action) :
    s.SameCategories s₁ := by
  have hkeeps : .categories ∉ (edit.direct s.ledger.settings).touches := by
    cases edit with
    | addCategory code affectsBalance action => exact absurd rfl (hother code affectsBalance action)
    | _ => simp [Edit.direct, Ledger.Edit.touches]
  have hops : Ledger.Operations (fun _ edit => .categories ∉ edit.touches) s.ledger s₁.ledger :=
    perform_operations (fun _ _ => Ledger.Edit.not_touches_categories_of_isPart) hs hkeeps hedit
  exact hops.categories

/-- If all categories affect the balance, so they do after an edit, unless it adds one that does not. -/
theorem perform_allAffectBalance (hs : s.ledger.Sound) {edit : Edit} {refusal : Option Failure}
    (hedit : s.perform edit = .ok (refusal, s₁))
    (hallowed : ∀ code affectsBalance action,
      edit = .addCategory code affectsBalance action → affectsBalance = true)
    (h : s.ledger.AllAffectBalance) : s₁.ledger.AllAffectBalance := by
  by_cases hadds : ∃ code affectsBalance action, edit = .addCategory code affectsBalance action
  · obtain ⟨code, affectsBalance, action, rfl⟩ := hadds
    obtain rfl := hallowed code affectsBalance action rfl
    obtain ⟨rfl, rfl⟩ := Prod.mk.inj (Except.ok.inj hedit)
    intro c hc
    rcases Register.mem_file_of_mem hc with rfl | hc
    · rfl
    · exact h c hc
  · have hsame := perform_categories hs hedit fun code affectsBalance action heq =>
      hadds ⟨code, affectsBalance, action, heq⟩
    rw [Ledger.AllAffectBalance, hsame]
    exact h

/-- An edit after which all categories affect the balance if they did before. -/
def KeepsAffecting (_ : Session) (edit : Edit) : Prop :=
  ∀ code affectsBalance action, edit = .addCategory code affectsBalance action → affectsBalance = true

theorem Run.allAffectBalance {edits : List Edit} (hrun : Run KeepsAffecting s edits s₁)
    (hs : s.ledger.Sound) (h : s.ledger.AllAffectBalance) : s₁.ledger.AllAffectBalance := by
  induction hrun with
  | done => exact h
  | step hallowed hedit _ ih =>
    exact ih ((perform_changed hs hedit).sound hs) (perform_allAffectBalance hs hedit hallowed h)

end Session

end Lotbook
