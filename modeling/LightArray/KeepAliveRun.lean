import LightArray.KeepAlive

namespace LightArray
open RefCount

/-- The bookkeeping besides counts. `owed` are exports whose deleter is due right
now: neither a capsule nor a consumer holds them any more. -/
structure Process.Ledger (p : Process) (owed : List ℕ) : Prop where
  objects : (p.heap.cells.map Cell.key ++ p.heap.destroyed).Perm p.created
  fresh : ∀ o ∈ p.created, o.1 < p.nextArray
  nodup : (p.created.map Prod.fst).Nodup
  rooted : ∀ o ∈ p.created, ∀ i ∈ o.2.holds, (i, (⟨none, none⟩ : ArrayBody)) ∈ p.created
  accounts : (p.boxes.map ExportBox.id ++ p.released).Perm (List.range p.nextBox)
  tokens : (p.unconsumed ++ p.tensors ++ owed).Perm (p.boxes.map ExportBox.id)
  capsules : (p.capsules.map Capsule.tensor).Nodup
  capsules_lt : ∀ c ∈ p.capsules, c.tensor < p.nextBox

/-- Exact counts and bookkeeping. -/
structure Process.Inv (p : Process) : Prop where
  exact : Exact ArrayBody.holds p.heap p.holders
  ledger : p.Ledger []

namespace Process

variable {p q : Process} {a x : ℕ} {owed : List ℕ}

section objects

/-- Between two operations no tensor is owed. -/
theorem Inv.tokens (h : p.Inv) : (p.unconsumed ++ p.tensors).Perm (p.boxes.map ExportBox.id) := by
  have htokens := h.ledger.tokens
  rwa [List.append_nil] at htokens

end objects

section steps

end steps

end Process

/-- The processes reached by operations in any order that follow the protocols. -/
inductive LifeRun : Process → Prop
  | start : LifeRun .initial
  | step {p q : Process} {op : LifeOp} (run : LifeRun p) (follows : p.Follows op)
      (ok : p.step op = some q) : LifeRun q

instance (p : Process) : ∀ op, Decidable (p.Follows op)
  | .newOwner => inferInstanceAs (Decidable True)
  | .newView a _ => inferInstanceAs (Decidable (a ∈ p.refs))
  | .newRef a => inferInstanceAs (Decidable (a ∈ p.refs))
  | .dropRef a => inferInstanceAs (Decidable (a ∈ p.refs))
  | .getBuffer a => inferInstanceAs (Decidable (a ∈ p.refs))
  | .releaseBuffer a => inferInstanceAs (Decidable (a ∈ p.buffers))
  | .dlpack _ a _ => inferInstanceAs (Decidable (a ∈ p.refs))
  | .consume x => inferInstanceAs (Decidable (x ∈ p.unconsumed))
  | .callDeleter x => inferInstanceAs (Decidable (x ∈ p.tensors))
  | .destroyCapsule x => inferInstanceAs (Decidable (∃ c ∈ p.capsules, c.tensor = x))

/-- Operations one after the other, as long as they follow the protocols. -/
def Process.runOps (p : Process) : List LifeOp → Option Process
  | [] => some p
  | op :: ops => if p.Follows op then p.step op >>= fun q => q.runOps ops else none

theorem LifeRun.runOps {p q : Process} {ops : List LifeOp} (h : LifeRun p)
    (hok : p.runOps ops = some q) : LifeRun q := by
  induction ops generalizing p with
  | nil =>
    cases hok
    exact h
  | cons op ops ih =>
    rw [Process.runOps] at hok
    split at hok
    · rename_i hf
      obtain ⟨r, hr, hrest⟩ := Option.bind_eq_some_iff.mp hok
      exact ih (.step h hf hr) hrest
    · cases hok

end LightArray
