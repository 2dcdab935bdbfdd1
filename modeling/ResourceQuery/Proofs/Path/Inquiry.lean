import ResourceQuery.Proofs.Path.Memo
/-!
# Inquiries

A computation that asks for paths on its way, and goes on as the answers are. It may be answered by
following each path (`Inquiry.answer`) or from a memo (`Inquiry.recollect`). A memo that knows only
what is so makes no difference (`Inquiry.recollect_eq`).
-/

namespace ResourceQuery

inductive Inquiry (α : Type)
  | done (outcome : Except Fault α)
  | ask (start text : String) (next : Except Fault Path → Inquiry α)

namespace Inquiry

variable {α β : Type}

def bind : Inquiry α → (α → Inquiry β) → Inquiry β
  | done (.ok a), f => f a
  | done (.error fault), _ => done (.error fault)
  | ask start text next, f => ask start text fun outcome => (next outcome).bind f

instance : Monad Inquiry where
  pure a := done (.ok a)
  bind := bind

instance : LawfulMonad Inquiry := LawfulMonad.mk' Inquiry
  (fun x => by
    induction x with
    | done outcome => cases outcome <;> rfl
    | ask start text next ih => exact congrArg (ask start text) (funext ih))
  (fun _ _ => rfl)
  (fun x f g => by
    induction x with
    | done outcome => cases outcome <;> rfl
    | ask start text next ih => exact congrArg (ask start text) (funext ih))

instance : MonadLift (Except Fault) Inquiry where
  monadLift := done

/-- Ask for a path, and stop if there is none. -/
def path (start text : String) : Inquiry Path := ask start text done

/-- Tell more about a fault. -/
def tell (more : Fault → Fault) : Inquiry α → Inquiry α
  | done (.ok a) => done (.ok a)
  | done (.error fault) => done (.error (more fault))
  | ask start text next => ask start text fun outcome => (next outcome).tell more

/-- The outcome when every path is followed. -/
def answer (s : Schema) : Inquiry α → Except Fault α
  | done outcome => outcome
  | ask start text next => (next (Path.resolve s start text)).answer s

/-- The outcome when a memo is asked, and what it remembers then. -/
def recollect (s : Schema) (m : Memo) : Inquiry α → Except Fault α × Memo
  | done outcome => (outcome, m)
  | ask start text next =>
    let (outcome, m) := m.resolve s start text
    (next outcome).recollect s m

/-- The calls that are made. -/
def calls (s : Schema) : Inquiry α → List (String × String)
  | done _ => []
  | ask start text next => (start, text) :: (next (Path.resolve s start text)).calls s

/-- From a memo the answers are those of the paths, and it remembers as after so many calls. -/
theorem recollect_eq {s : Schema} {m : Memo} (hm : m.Sound s) (x : Inquiry α) :
    x.recollect s m = (x.answer s, (m.run s (x.calls s)).2) := by
  induction x generalizing m with
  | done outcome => rfl
  | ask start text next ih =>
      obtain ⟨hanswer, hnext, -⟩ := hm.resolve start text
      rw [recollect, answer, calls, Memo.run_cons, ← hanswer]
      exact ih _ hnext

/-! ## What is answered -/

variable {s : Schema}

theorem answer_bind (x : Inquiry α) (f : α → Inquiry β) :
    (x >>= f).answer s = x.answer s >>= fun a => (f a).answer s := by
  induction x with
  | done outcome => cases outcome <;> rfl
  | ask start text next ih => exact ih _

theorem answer_pure (a : α) : (pure a : Inquiry α).answer s = pure a := rfl

theorem answer_lift (outcome : Except Fault α) :
    (liftM outcome : Inquiry α).answer s = outcome := rfl

theorem answer_ite (p : Prop) [Decidable p] (x y : Inquiry α) :
    (if p then x else y).answer s = if p then x.answer s else y.answer s :=
  apply_ite (answer s) p x y

theorem answer_path (start text : String) :
    (path start text).answer s = Path.resolve s start text := rfl

theorem answer_tell (more : Fault → Fault) (x : Inquiry α) :
    (x.tell more).answer s = (x.answer s).mapError more := by
  induction x with
  | done outcome => cases outcome <;> rfl
  | ask start text next ih => exact ih _

theorem answer_foldlM (f : β → α → Inquiry β) (items : List α) (b : β) :
    (items.foldlM f b).answer s = items.foldlM (fun b a => (f b a).answer s) b := by
  induction items generalizing b with
  | nil => rfl
  | cons a rest ih =>
      rw [List.foldlM_cons, List.foldlM_cons, answer_bind]
      simp only [ih]

theorem answer_mapM (f : α → Inquiry β) (items : List α) :
    (items.mapM f).answer s = items.mapM fun a => (f a).answer s := by
  induction items with
  | nil => rfl
  | cons a rest ih => simp only [List.mapM_cons, answer_bind, answer_pure, ih]

end Inquiry

end ResourceQuery
