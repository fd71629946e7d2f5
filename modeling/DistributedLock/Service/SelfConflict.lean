import DistributedLock.Service.Steps
import DistributedLock.Table.Cosine

/-! The conflict relation of `AcquireGuard`, over exact real arithmetic. Two calls with one
embedding conflict, whichever has its slot first, unless the embedding is the zero vector:
`AcquireGuard` asks only that it is not empty, and to `cosine_similarity` the zero vector is
like nothing else. -/

namespace DistributedLock.Service

open Table

/-- `AcquireGuard` goes on to the leader check if neither field is empty. -/
theorem AcquireCall.arrive_accepts {ι F : Type*} [Zero F] (cfg : ServiceConfig ι F)
    {request : AcquireRequest F} (now : ℤ) (hagent : request.agentId ≠ "")
    (hembedding : request.embedding ≠ []) :
    (arrive cfg request now).pc = .checkLeader := by
  rw [arrive, if_neg hagent, if_neg hembedding]

/-- The similarity is symmetric, lies between -1 and 1 before the clamp, and sees directions
only. A call finds a conflict with the slot of a call with the same embedding exactly if
the embedding has a component that is not zero. -/
theorem conflict_relation {ι : Type*} :
    (∀ a b : List ℝ, cosineSimilarity a b = cosineSimilarity b a ∧
      (-1 ≤ cosineSimilarity a b ∧ cosineSimilarity a b ≤ 1) ∧
      (∀ x, unclamped a b = some x → clamp (F := ℝ) x = x) ∧
      ∀ r : ℝ, 0 < r → cosineSimilarity (a.map (r * ·)) b = cosineSimilarity a b ∧
        cosineSimilarity a (b.map (r * ·)) = cosineSimilarity a b) ∧
    (∀ e : List ℝ, ((∃ x ∈ e, x ≠ 0) → cosineSimilarity e e = 1) ∧
      ((∀ x ∈ e, x = 0) → ∀ b, cosineSimilarity e b = 0)) ∧
    ∀ cfg : ServiceConfig ι ℝ, 0 < cfg.theta → cfg.theta ≤ 1 →
      ∀ (t : LockTable ℝ) (c c' : AcquireCall ℝ) (lock : SemanticLock ℝ),
        t.active.find c.agentId = some lock → lock.centroid = c.embedding →
        c'.embedding = c.embedding →
          ((t.findConflict c'.embedding cfg.theta).isSome ↔ ∃ x ∈ c'.embedding, x ≠ 0) := by
  refine ⟨fun a b => ⟨cosineSimilarity_comm a b, cosineSimilarity_mem a b,
    fun x => clamp_of_unclamped, fun r hr => ⟨cosineSimilarity_map_mul hr a b, ?_⟩⟩,
    fun e => ⟨cosineSimilarity_self, cosineSimilarity_zero⟩,
    fun cfg hpos htheta t c c' lock hfind hcentroid hsame => ?_⟩
  · rw [cosineSimilarity_comm, cosineSimilarity_map_mul hr, cosineSimilarity_comm]
  · rw [hsame, ← hcentroid]
    exact LockTable.findConflict_same_iff hfind hpos htheta

/-- A node with the largest threshold, at which only equal directions conflict. -/
noncomputable def strictNode : ServiceConfig (Fin 3) ℝ where
  node := Raft.ClusterConfig.testNodes.node 0
  theta := 1

noncomputable def callFor (agentId : String) (embedding : List ℝ) : AcquireCall ℝ :=
  AcquireCall.arrive strictNode { agentId, embedding } 0

/-- The table in which "a" has been admitted for a vector. -/
noncomputable def tableOf (embedding : List ℝ) : LockTable ℝ :=
  LockTable.empty.reservePending .newest ((callFor "a" embedding).demand strictNode.theta)

theorem callFor_embedding (agentId : String) (embedding : List ℝ) :
    (callFor agentId embedding).embedding = embedding :=
  congrArg AcquireRequest.embedding (AcquireCall.arrive_request strictNode _ 0)

theorem tableOf_find (embedding : List ℝ) :
    ∃ lock, (tableOf embedding).active.find (callFor "a" embedding).agentId = some lock ∧
      lock.centroid = (callFor "a" embedding).embedding := by
  obtain ⟨lock, hs, hcentroid, -⟩ := LockTable.empty.insertPending_stores .newest
    (callFor "a" embedding).agentId (callFor "a" embedding).embedding strictNode.theta
  exact ⟨lock, hs.find_self, hcentroid⟩

theorem conflict_relation_scaled :
    cosineSimilarity ([3, 4].map ((2 : ℝ) * ·)) [3, 4] = 1 ∧
      ((tableOf [3, 4]).findConflict (callFor "b" [3, 4]).embedding strictNode.theta).isSome := by
  obtain ⟨hpair, hself, hconflict⟩ := @conflict_relation (Fin 3)
  have hne : ∃ x ∈ ([3, 4] : List ℝ), x ≠ 0 := ⟨3, List.mem_cons_self, by norm_num⟩
  obtain ⟨lock, hfind, hcentroid⟩ := tableOf_find [3, 4]
  refine ⟨(((hpair [3, 4] [3, 4]).2.2.2 2 two_pos).1).trans ((hself [3, 4]).1 hne), ?_⟩
  refine (hconflict strictNode one_pos le_rfl (tableOf [3, 4]) (callFor "a" [3, 4])
    (callFor "b" [3, 4]) lock hfind hcentroid ?_).mpr ?_
  · rw [callFor_embedding, callFor_embedding]
  · rw [callFor_embedding]
    exact hne

/-- "a" has been admitted for a zero vector, and "b" finds no conflict for the same. -/
theorem zero_embedding_admitted :
    (callFor "a" [0]).pc = .checkLeader ∧ (callFor "b" [0]).pc = .checkLeader ∧
      cosineSimilarity (callFor "a" [0]).embedding (callFor "a" [0]).embedding ≠ 1 ∧
      (0 < strictNode.theta ∧ strictNode.theta ≤ 1) ∧
      (callFor "b" [0]).embedding = (callFor "a" [0]).embedding ∧
      (∃ lock, (tableOf [0]).active.find (callFor "a" [0]).agentId = some lock ∧
        lock.centroid = (callFor "a" [0]).embedding) ∧
      (tableOf [0]).findConflict (callFor "b" [0]).embedding strictNode.theta = none := by
  have hzero : ∀ x ∈ ([0] : List ℝ), x = 0 := fun x hx => List.mem_singleton.mp hx
  have haccepts : ∀ id : String, id ≠ "" → (callFor id [0]).pc = .checkLeader := fun id hid =>
    AcquireCall.arrive_accepts strictNode 0 hid (List.cons_ne_nil _ _)
  refine ⟨haccepts "a" (by decide), haccepts "b" (by decide), ?_, ⟨one_pos, le_rfl⟩, ?_,
    tableOf_find [0], ?_⟩
  · rw [callFor_embedding, cosineSimilarity_zero hzero]
    exact zero_ne_one
  · rw [callFor_embedding, callFor_embedding]
  · rw [callFor_embedding]
    exact LockTable.findConflict_zero _ hzero one_pos

end DistributedLock.Service
