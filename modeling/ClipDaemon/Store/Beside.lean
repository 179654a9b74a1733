import ClipDaemon.Store.Retention

/-!
# Requests beside the history

Only a few requests change the history that clients know.  The others read, or are about generated
files and echoes, and leave every entry and every payload as it is.
-/

namespace ClipDaemon

/-- What clients know as the history: the entries, with their revisions, and the payloads. -/
structure SameEntries (t t' : Tables) : Prop where
  entries : t'.entries = t.entries
  payloads : t'.payloads = t.payloads

theorem SameEntries.refl (t : Tables) : SameEntries t t := ⟨rfl, rfl⟩

namespace Request

variable {P : Platform} {env : Env} {t t' : Tables} {reply : Reply}

/-- The request that changes the policy of the store. -/
def isPolicy : Request → Bool
  | applyPolicy _ => true
  | _ => false

/-- The requests that read, and those about generated files and echoes. -/
def isAside : Request → Bool
  | applyPolicy _ | insert .. | replace .. | favorite .. | removeMany _ | wipe => false
  | _ => true

theorem effect_isAside {request : Request} (haside : request.isAside = true)
    (h : request.effect P env t = .ok (reply, t')) : SameEntries t t' := by
  unfold effect at h
  cases request with
  | registerArtifact record =>
      simp only [job] at h
      split at h
      · cases h
      · have ht := Database.registerArtifact_ok (unit_ok h).2
        simp only at ht
        exact ht ▸ ⟨rfl, rfl⟩
  | forgetArtifact path =>
      simp only [job] at h
      split at h
      · cases h
      · have hbody := (unit_ok h).2
        rw [Database.forgetArtifact, exec_ok] at hbody
        exact (Except.ok.inj hbody) ▸ ⟨rfl, rfl⟩
  | registerInlineEcho record =>
      simp only [job] at h
      split at h
      · have hbody := (unit_ok h).2
        simp only [Database.registerInlineEcho, Prog.eval_bind, eval_exec, Tables.upsertInlineEcho,
          Except.map] at hbody
        cases hbody
        exact ⟨rfl, rfl⟩
      · exact direct_ok h ▸ .refl t
  | clearInlineEchoes =>
      have hbody := (unit_ok h).2
      rw [Database.clearInlineEchoes, exec_ok] at hbody
      exact (Except.ok.inj hbody) ▸ ⟨rfl, rfl⟩
  | applyPolicy _ | insert _ _ | replace _ _ _ _ | favorite _ _ _ | removeMany _ | wipe =>
      cases haside
  | _ => exact direct_ok h ▸ .refl t

end Request
end ClipDaemon
