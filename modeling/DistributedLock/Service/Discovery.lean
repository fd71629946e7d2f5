import DistributedLock.Service.Proxy

/-! What `RefreshLeader` finds. The backends are asked in the order of the list, and the
first address that any of them gives ends the search: the one of a node that leads as
well as the one that a follower holds for its leader, and no term is compared. -/

namespace DistributedLock.Service

open Raft

/-- Answers without an address are passed over. -/
theorem refreshLeader_append {before : List (Option LeaderInfo)}
    (h : ∀ r, some r ∈ before → r.leaderAddress = "") (responses : List (Option LeaderInfo)) :
    refreshLeader (before ++ responses) = refreshLeader responses := by
  induction before with
  | nil => rfl
  | cons response before ih =>
    have hbefore := ih fun r hr => h r (List.mem_cons_of_mem response hr)
    cases response with
    | none => exact hbefore
    | some response =>
      have hresponse := h response List.mem_cons_self
      rw [List.cons_append, refreshLeader, if_neg (fun hr => hr.2 hresponse),
        if_neg (fun hr => hr hresponse), hbefore]

theorem refreshLeader_cons {response : LeaderInfo} (h : response.leaderAddress ≠ "")
    (responses : List (Option LeaderInfo)) :
    refreshLeader (some response :: responses) =
      (response.leaderAddress, response.leaderAddress) := by
  rw [refreshLeader]
  split_ifs with hleader
  · rfl
  · rfl

/-- The first answer with an address, if there is one. -/
theorem refreshLeader_cases (responses : List (Option LeaderInfo)) :
    (∃ before r after, responses = before ++ some r :: after ∧
      (∀ q, some q ∈ before → q.leaderAddress = "") ∧ r.leaderAddress ≠ "") ∨
    ∀ q, some q ∈ responses → q.leaderAddress = "" := by
  induction responses with
  | nil => exact Or.inr fun q hq => absurd hq List.not_mem_nil
  | cons response responses ih =>
    by_cases hresponse : ∀ q, some q ∈ [response] → q.leaderAddress = ""
    · have hpass : ∀ {before : List (Option LeaderInfo)},
          (∀ q, some q ∈ before → q.leaderAddress = "") →
            ∀ q, some q ∈ response :: before → q.leaderAddress = "" := by
        intro before hbefore q hq
        rcases List.mem_cons.mp hq with hq | hq
        · exact hresponse q (List.mem_singleton.mpr hq)
        · exact hbefore q hq
      rcases ih with ⟨before, r, after, rfl, hbefore, hr⟩ | hall
      · exact Or.inl ⟨response :: before, r, after, rfl, hpass hbefore, hr⟩
      · exact Or.inr (hpass hall)
    · push Not at hresponse
      obtain ⟨r, hr, haddress⟩ := hresponse
      rw [← List.mem_singleton.mp hr]
      exact Or.inl ⟨[], r, responses, rfl, fun q hq => absurd hq List.not_mem_nil, haddress⟩

/-- The address that is returned and cached is the one of the first answer that has one,
whoever gave it; an address that a later answer has is found if the answers before it
have none or the same. -/
theorem refreshLeader_first (responses : List (Option LeaderInfo)) :
    ((∃ before r after, responses = before ++ some r :: after ∧
        (∀ q, some q ∈ before → q.leaderAddress = "") ∧ r.leaderAddress ≠ "" ∧
        refreshLeader responses = (r.leaderAddress, r.leaderAddress)) ∨
      (∀ q, some q ∈ responses → q.leaderAddress = "") ∧
        refreshLeader responses = ("", "")) ∧
    ∀ before r after, responses = before ++ some r :: after → r.leaderAddress ≠ "" →
      (∀ q, some q ∈ before → q.leaderAddress = "" ∨ q.leaderAddress = r.leaderAddress) →
      refreshLeader responses = (r.leaderAddress, r.leaderAddress) := by
  constructor
  · rcases refreshLeader_cases responses with ⟨before, r, after, rfl, hbefore, hr⟩ | hall
    · refine Or.inl ⟨before, r, after, rfl, hbefore, hr, ?_⟩
      rw [refreshLeader_append hbefore, refreshLeader_cons hr]
    · refine Or.inr ⟨hall, ?_⟩
      have h := refreshLeader_append hall []
      rw [List.append_nil] at h
      rw [h, refreshLeader]
  · rintro before r after rfl hr hsame
    rcases refreshLeader_cases before with ⟨first, q, later, rfl, hfirst, hq⟩ | hall
    · have hqr := (hsame q (by simp)).resolve_left hq
      rw [List.append_assoc, refreshLeader_append hfirst, List.cons_append,
        refreshLeader_cons hq, hqr]
    · rw [refreshLeader_append hall, refreshLeader_cons hr]

/-- The address is the one that an answering leader gives whose term is maximal among
the answers that claim leadership. -/
def OfNewestLeader (responses : List (Option LeaderInfo)) (address : String) : Prop :=
  ∃ r, some r ∈ responses ∧ r.isLeader ∧ r.leaderAddress = address ∧
    ∀ q, some q ∈ responses → q.isLeader → q.currentTerm ≤ r.currentTerm

/-- After a partition: the leader of term 2 still answers as one, before the leader of
term 3 is asked. -/
theorem refreshLeader_deposed :
    ¬ ∀ responses : List (Option LeaderInfo),
      (∃ r, some r ∈ responses ∧ r.isLeader ∧ r.leaderAddress ≠ "") →
        OfNewestLeader responses (refreshLeader responses).1 ∧
          OfNewestLeader responses (refreshLeader responses).2 := by
  intro h
  let deposed : LeaderInfo :=
    { leaderId := "node-1", leaderAddress := "dscc-node-1:50051", currentTerm := 2
      isLeader := true }
  let newest : LeaderInfo :=
    { leaderId := "node-2", leaderAddress := "dscc-node-2:50052", currentTerm := 3
      isLeader := true }
  obtain ⟨-, r, hr, -, haddress, hmax⟩ :=
    h [some deposed, some newest] ⟨newest, by simp, rfl, by decide⟩
  have hnewest := hmax newest (by simp) rfl
  rcases List.mem_cons.mp hr with hr | hr
  · rw [Option.some.inj hr] at hnewest
    exact absurd hnewest (by decide)
  · rw [Option.some.inj (List.mem_singleton.mp hr)] at haddress
    exact absurd haddress (by decide)

end DistributedLock.Service
