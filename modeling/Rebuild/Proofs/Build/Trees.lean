import Mathlib
import Rebuild.Proofs.Build.Effects
import Rebuild.Proofs.Workspace.Artifacts

/-! What happens to the tree of files in a session. A tree that is well-formed stays so. -/
namespace Rebuild.Build

variable {τ : Type} {s t : Session τ}

namespace Session

theorem evictSource_tree (s : Session τ) (p : Path) : (s.evictSource p).tree = s.tree := by
  obtain ⟨table, htable⟩ := s.evictSource_eq p
  rw [htable]

theorem removeStale_eq (s : Session τ) (p : Path) (produced : List Path) : ∃ table,
    s.removeStale p produced =
      { s with
        tree := deleteFiles s.tree (s.workspace.staleArtifacts s.tree p produced)
        cache := { s.cache with table } } := by
  unfold removeStale
  simp only
  split
  next =>
    obtain ⟨table, htable⟩ := evictSource_eq ({ s with tree := _ } : Session τ) p
    exact ⟨table, htable⟩
  next => exact ⟨s.cache.table, rfl⟩

theorem removeStale_tree (s : Session τ) (p : Path) (produced : List Path) :
    (s.removeStale p produced).tree =
      deleteFiles s.tree (s.workspace.staleArtifacts s.tree p produced) := by
  obtain ⟨table, hstale⟩ := s.removeStale_eq p produced
  rw [hstale]

end Session

theorem deleteFiles_proper {t : FileTree} (h : t.Proper) (paths : List Path) :
    (Session.deleteFiles t paths).Proper :=
  (FileTree.foldl_deleteFile_spec h paths).2.1

theorem markEach_tree (s : Session τ) (files : List Path) : (s.markEach files).tree = s.tree :=
  Session.markEach_induction (P := fun t => t.tree = s.tree) rfl fun _ _ _ ht => ht

theorem apply_proper (h : s.tree.Proper) (e : Event) : (s.apply e).tree.Proper := by
  cases e with
  | write p data => exact h.write p _
  | makeDirectory p => exact (FileTree.makeWithin_extends _ h p).2
  | delete p => exact h.delete p
  | deleteFile p => exact (FileTree.deleteFile_spec h p).2.1
  | markAllDirty =>
    change (s.markEach _).tree.Proper
    rw [markEach_tree]
    exact h
  | removeFile p =>
    change (Session.evictSource _ p).tree.Proper
    rw [Session.evictSource_tree]
    exact deleteFiles_proper h _
  | _ => exact h

theorem learn_proper (h : s.tree.Proper) (file : FileId) (p : Path) (project : String)
    (output : CompileOutput) : (s.learn file p project output).2.tree.Proper := by
  have htaken : (s.takeArtifacts p output).2.tree.Proper := by
    unfold Session.takeArtifacts
    split
    · exact h
    · rw [Session.removeStale_tree]
      exact deleteFiles_proper h _
  exact htaken

theorem acceptSuccess_tree (s : Session τ) (file : FileId) (p : Path) (project : String)
    (output : CompileOutput) : (s.acceptSuccess file p project output).tree =
      (s.learn file p project output).2.tree := by
  rcases hlearn : s.learn file p project output with ⟨update, t⟩
  simp only [Session.acceptSuccess, hlearn]
  split <;> rfl

theorem settle_proper (h : s.tree.Proper) (request : CompileRequest) (output : CompileOutput) :
    (s.settle request output).tree.Proper := by
  unfold Session.settle
  cases output.status with
  | success =>
    simp only [Session.onSuccess]
    split
    · rw [acceptSuccess_tree]
      exact learn_proper h _ _ _ _
    · exact deleteFiles_proper h _
  | retryable => exact h
  | fatal => exact h

theorem request_tree {file : FileId} {request : CompileRequest}
    (h : s.request file = .ok (some (request, t))) : t.tree = s.tree := by
  unfold Session.request at h
  split at h
  next => cases h
  next =>
    split at h
    next => cases h
    next =>
      split at h
      next => cases h
      next =>
        cases h
        rfl

theorem Step.proper {p q : Phase} {m : Moment τ} (hm : Step p m q) (h : m.before.tree.Proper) :
    m.after.tree.Proper := by
  cases hm with
  | work hm =>
    cases hm with
    | called hsome => exact request_tree hsome ▸ h
    | event request s e => exact apply_proper h e
    | settled request s output => exact settle_proper h request output
    | _ => exact h
  | event s e => exact apply_proper h e
  | _ => exact h

theorem Chain.proper {p q : Phase} {moments : List (Moment τ)}
    (hchain : Chain Step p s moments q t) (h : s.tree.Proper) : t.tree.Proper :=
  hchain.invariant (I := fun _ _ u => u.tree.Proper) (fun hm h => hm.proper h) [] h

end Rebuild.Build
