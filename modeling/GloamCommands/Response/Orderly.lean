/-
  GloamCommands.Response.Orderly — what an application does so that nothing is overwritten.

  In `Response.Conversation` a `reply` may complete a deferral that has been answered
  before. Two things lead there: a followup that is let through while the deferral is to
  be completed, and an answer that is lost on its way back. Without them the state is
  exact: a deferral that the state has and that nobody is completing is there.
  - `orderly_moves`: the invariant.
  - `orderly_conversation`: such a run is a conversation.
-/

import GloamCommands.Response.Conversation

namespace GloamCommands.Response

open Lib (run Along along_map along_within observed observed_map)

variable {E : Type} {interaction : Interaction}

/-- No followup is let through while there is a deferral to complete, and the answer to a
    request that has landed arrives. -/
structure Orderly {S R : Type} (w : World S E R) (m : Nat × Move E) : Prop where
  completed : ∀ payload ephemeral visibility, m.2 = .decide → w.pc m.1 = .holding (.followup payload ephemeral) →
    w.state ≠ .deferred visibility
  answered : ∀ error call plan response, m.2 = .fail error → w.pc m.1 ≠ .landed call plan response

def Said (original : Original) : Prop := ∀ ephemeral, Open original ephemeral

theorem Said.followup {original original' : Original} {shown : Option Bool} {application : ApplicationId} {token : String}
    {data : InteractionMessageData E} (h : Said original)
    (hl : discord original (.createFollowupMessage application token data) = some (original', shown)) :
    original' = original := by
  rcases followup_lands hl with heq | ⟨v, heq, -⟩
  · exact heq
  · exact absurd ((h (!v)).2 v heq) (by simp)

structure OrderlyInv (w : World (Channel E) E (Option (Message E))) : Prop where
  /-- What a followup follows. -/
  aimed : ∀ t payload ephemeral plan, (w.pc t).aimed = some (.followup payload ephemeral, plan) →
    Said w.server.original.view
  /-- A deferral is there as long as nobody has its completion in hand. -/
  current : ∀ visibility, w.state = .deferred visibility → (∀ t, (w.pc t).holds = true → (w.pc t).success = none) →
    w.server.original.view = .deferral visibility
  /-- And so is one that is about to be recorded. -/
  next : ∀ t call plan visibility, (w.pc t).success = some (call, plan) → (w.pc t).holds = true →
    plan.next = .deferred visibility → w.server.original.view = .deferral visibility

theorem orderly_start : OrderlyInv (World.start .empty : World (Channel E) E (Option (Message E))) :=
  ⟨fun _ _ _ _ h => by (cases h), fun _ h => by (cases h), fun _ _ _ _ h => by (cases h)⟩

theorem OrderlyInv.goto {w w' : World (Channel E) E (Option (Message E))} {t : Nat} {p : Pc E (Option (Message E))}
    (hi : OrderlyInv w) (hpc : w'.pc = Function.update w.pc t p)
    (hview : w'.server.original.view = w.server.original.view) (hstate : w'.state = w.state)
    (haimed : ∀ payload ephemeral plan, p.aimed = some (.followup payload ephemeral, plan) →
      Said w.server.original.view)
    (hold : (p.holds = true → p.success = none) → (w.pc t).holds = true → (w.pc t).success = none)
    (hnext : p.holds = true → p.success = none ∨ (p.success = (w.pc t).success ∧ (w.pc t).holds = true)) :
    OrderlyInv w' := by
  have hself : w'.pc t = p := by rw [hpc, Function.update_self]
  have hother : ∀ u, u ≠ t → w'.pc u = w.pc u := fun u hu => by rw [hpc, Function.update_of_ne hu]
  refine ⟨fun u payload ephemeral plan h => ?_, fun visibility hs hnone => ?_, fun u call plan visibility h hh hn => ?_⟩
  · rw [hview]
    by_cases hu : u = t
    · subst hu; rw [hself] at h; exact haimed payload ephemeral plan h
    · rw [hother u hu] at h; exact hi.aimed u payload ephemeral plan h
  · rw [hview]
    refine hi.current visibility (hstate ▸ hs) fun u hh => ?_
    by_cases hu : u = t
    · subst hu; exact hold (fun hp => hself ▸ hnone u (hself ▸ hp)) hh
    · rw [← hother u hu] at hh ⊢; exact hnone u hh
  · rw [hview]
    by_cases hu : u = t
    · subst hu
      rw [hself] at h hh
      rcases hnext hh with hp | ⟨hp, hheld⟩
      · rw [hp] at h; cases h
      · exact hi.next u call plan visibility (hp ▸ h) hheld hn
    · rw [hother u hu] at h hh; exact hi.next u call plan visibility h hh hn

theorem OrderlyInv.quiet {w w' : World (Channel E) E (Option (Message E))} {t : Nat} {p : Pc E (Option (Message E))}
    (hi : OrderlyInv w) (hpc : w'.pc = Function.update w.pc t p) (hserver : w'.server = w.server)
    (hstate : w'.state = w.state) (haimed : p.aimed = none) (hp : p.success = none)
    (hold : (w.pc t).holds = true → (w.pc t).success = none) : OrderlyInv w' :=
  hi.goto hpc (by rw [hserver]) hstate (fun _ _ _ h => by rw [haimed] at h; cases h) (fun _ => hold) fun _ => .inl hp

theorem OrderlyInv.carry {w w' : World (Channel E) E (Option (Message E))} {t : Nat} {p : Pc E (Option (Message E))}
    (hi : OrderlyInv w) (hpc : w'.pc = Function.update w.pc t p) (hserver : w'.server = w.server)
    (hstate : w'.state = w.state) (haimed : p.aimed = (w.pc t).aimed) (hp : p.success = none)
    (hold : (w.pc t).success = none) : OrderlyInv w' :=
  hi.goto hpc (by rw [hserver]) hstate (fun payload ephemeral plan h => hi.aimed t payload ephemeral plan (haimed ▸ h))
    (fun _ _ => hold) fun _ => .inl hp

theorem landed_deferral {call : Call E} {state : ResponseState} {plan : Plan E} {visibility : Bool}
    {original original' : Original} {shown : Option Bool} (hp : Planned interaction call state plan)
    (hu : call.unlocks = false) (hn : plan.next = .deferred visibility)
    (h : discord original plan.request = some (original', shown)) : original' = .deferral visibility := by
  cases hp with
  | deferral ephemeral =>
    cases hn
    cases original with
    | none => cases visibility <;> (cases h; rfl)
    | _ => cases h
  | later _ _ hs => rcases hs with rfl | rfl <;> cases hn
  | followup => cases hu
  | _ => cases hn

theorem orderly_moves {w w' : World (Channel E) E (Option (Message E))} {m : Nat × Move E} (hl : LockInv interaction w)
    (hv : ChatInv w) (hi : OrderlyInv w) (hg : Orderly w m) (h : Moves interaction chat w m w') : OrderlyInv w' := by
  cases h with
  | call hpc => exact hi.quiet rfl rfl rfl rfl rfl (by rw [hpc]; exact fun _ => rfl)
  | acquire hpc => exact hi.quiet rfl rfl rfl rfl rfl (by rw [hpc]; exact fun _ => rfl)
  | refuse hpc => exact hi.quiet rfl rfl rfl rfl rfl (by rw [hpc]; exact fun _ => rfl)
  | finish hpc =>
    refine hi.quiet rfl rfl rfl rfl rfl ?_
    rw [hpc]
    exact fun h => by cases h
  | @plan t call plan hpc hd =>
    refine hi.goto rfl rfl rfl (fun payload ephemeral plan' h => ?_) (fun _ => by rw [hpc]; exact fun _ => rfl)
      fun _ => .inl rfl
    cases h
    -- the state is beyond the deferral
    have hne := fun visibility => hg.completed payload ephemeral visibility rfl hpc
    cases decide_planned hd with
    | followup _ _ hpending =>
      refine fun e => open_of_tracks hv.tracks ?_ e
      cases hs : w.state with
      | pending => exact absurd hs hpending
      | deferred v => exact absurd hs (hne v)
      | responded => exact .inl rfl
      | deleted => exact .inr rfl
  | unlock hpc => exact hi.carry rfl rfl rfl (by rw [hpc]; rfl) rfl (by rw [hpc]; rfl)
  | send hpc =>
    rcases hpc with ⟨hpc, -⟩ | hpc
    · exact hi.carry rfl rfl rfl (by rw [hpc]; rfl) rfl (by rw [hpc]; rfl)
    · exact hi.carry rfl rfl rfl (by rw [hpc]; rfl) rfl (by rw [hpc]; rfl)
  | fail hpc =>
    rcases hpc with hpc | ⟨shown, hpc⟩
    · exact hi.quiet rfl rfl rfl rfl rfl (by rw [hpc]; exact fun _ => rfl)
    · exact absurd hpc (hg.answered _ _ _ _ rfl)
  | @answer t call plan shown hpc =>
    refine hi.goto rfl rfl rfl (fun _ _ _ h => by cases h) (fun h => ?_) fun hh => .inr ⟨?_, ?_⟩
    · rw [hpc]
      exact h
    · rw [hpc]
      rfl
    · rw [hpc]
      exact hh
  | @settle t call plan outcome hpc hu =>
    refine hi.quiet rfl rfl rfl rfl rfl fun hh => ?_
    rw [hpc] at hh ⊢
    cases outcome with
    | error => rfl
    | ok shown => simp [Pc.holds, hu shown rfl] at hh
  | @record t call plan shown hpc hu =>
    have hholds : (w.pc t).holds = true := by rw [hpc]; simp [Pc.holds, hu]
    have hself : Function.update w.pc t (.finished call (.ok shown)) t = .finished call (.ok shown) :=
      Function.update_self _ _ _
    have hother : ∀ u, u ≠ t → Function.update w.pc t (.finished call (.ok shown)) u = w.pc u := fun u hu =>
      Function.update_of_ne hu _ _
    refine ⟨fun u payload ephemeral p h => ?_, fun visibility hs _ => ?_, fun u c p visibility h hh _ => ?_⟩
    · change (Function.update w.pc t (.finished call (.ok shown)) u).aimed = _ at h
      by_cases hut : u = t
      · subst hut; rw [hself] at h; cases h
      · rw [hother u hut] at h; exact hi.aimed u payload ephemeral p h
    · exact hi.next t call plan visibility (by rw [hpc]; rfl) hholds hs
    · change (Function.update w.pc t (.finished call (.ok shown)) u).holds = _ at hh
      by_cases hut : u = t
      · subst hut; rw [hself] at hh; cases hh
      · rw [hother u hut] at hh
        have ho := hl.owned u hh
        rw [hl.owned t hholds] at ho
        exact absurd (Option.some.inj ho).symm hut
  | @land t call plan channel shown hpc hchat =>
    have hview := chat_view hchat
    have hself : Function.update w.pc t (.landed call plan shown) t = .landed call plan shown :=
      Function.update_self _ _ _
    have hother : ∀ u, u ≠ t → Function.update w.pc t (.landed call plan shown) u = w.pc u := fun u hu =>
      Function.update_of_ne hu _ _
    obtain ⟨state, hp, -, -⟩ := hl.fresh t call plan (by rw [hpc]; rfl)
    cases hu : call.unlocks with
    | true =>
      have hsaid : channel.original.view = w.server.original.view := by
        cases hp with
        | followup payload ephemeral => exact (hi.aimed t payload ephemeral _ (by rw [hpc]; rfl)).followup hview
        | _ => cases hu
      refine hi.goto rfl hsaid rfl (fun _ _ _ h => by cases h) (fun _ _ => by rw [hpc]; rfl) fun hh => ?_
      simp [Pc.holds, hu] at hh
    | false =>
      have hholds : (w.pc t).holds = true := by rw [hpc]; simp [Pc.holds, hu]
      refine ⟨fun u payload ephemeral p h => ?_, fun visibility _ hnone => ?_, fun u c p visibility h hh hn => ?_⟩
      · change (Function.update w.pc t (.landed call plan shown) u).aimed = _ at h
        by_cases hut : u = t
        · subst hut; rw [hself] at h; cases h
        · rw [hother u hut] at h
          exact fun e => land_open hview (hi.aimed u payload ephemeral p h e)
      · -- the task that has landed has its success in hand
        have hlanded := hnone t
        change (Function.update w.pc t (.landed call plan shown) t).holds = true →
          (Function.update w.pc t (.landed call plan shown) t).success = none at hlanded
        rw [hself] at hlanded
        cases hlanded (by simp [Pc.holds, hu])
      · change (Function.update w.pc t (.landed call plan shown) u).success = _ at h
        change (Function.update w.pc t (.landed call plan shown) u).holds = _ at hh
        by_cases hut : u = t
        · subst hut
          rw [hself] at h
          cases h
          exact landed_deferral hp hu hn hview
        · rw [hother u hut] at hh
          have ho := hl.owned u hh
          rw [hl.owned t hholds] at ho
          exact absurd (Option.some.inj ho).symm hut

/-- What lands then is no `reply` that overwrites. -/
theorem orderly_unanswered {w : World (Channel E) E (Option (Message E))} (hl : LockInv interaction w)
    (hi : OrderlyInv w) (m : Nat × Move E) : Unanswered id w m := by
  intro payload ephemeral plan message _ hpc hedit hmessage
  obtain ⟨state, hp, hcur, -⟩ := hl.fresh m.1 _ plan (by rw [hpc]; rfl)
  have hholds : (w.pc m.1).holds = true := by rw [hpc]; rfl
  have hcur := hcur hholds
  cases hp with
  | complete =>
    have hthere := hi.current ephemeral hcur.symm fun u hu => by
      -- nobody else has the lock
      have ho := hl.owned u hu
      rw [hl.owned m.1 hholds] at ho
      rw [← Option.some.inj ho, hpc]
      rfl
    rw [show w.server.original = .message message from hmessage] at hthere
    cases hthere
  | _ => cases hedit

/-! ## Everything that was said -/

def said (landings : List (Nat × Call E × Option (Message E))) : List (Message E) :=
  landings.flatMap fun turn => if turn.2.1.requested.isSome then turn.2.2.toList else []

def Channel.silent (channel : Channel E) : Prop :=
  channel.original = .none ∨ ∃ ephemeral, channel.original = .deferral ephemeral

/-- The followups are what was said, save for what opened the conversation. -/
def Complete (channel : Channel E) (messages : List (Message E)) : Prop :=
  (∃ opening, opening.length ≤ 1 ∧ messages = opening ++ channel.followups) ∧ (channel.silent → messages = [])

theorem Complete.opens {channel : Channel E} {messages : List (Message E)} (h : Complete channel messages)
    (hsilent : channel.silent) (new : List (Message E)) (hnew : new.length ≤ 1) (message : Message E) :
    Complete (channel.opening message).1 (messages ++ new) := by
  obtain ⟨⟨opening, -, hmessages⟩, hnone⟩ := h
  obtain rfl := hnone hsilent
  have hfollowups : channel.followups = [] := (List.append_eq_nil_iff.mp hmessages.symm).2
  refine ⟨⟨new, hnew, by simp [Channel.opening, hfollowups]⟩, fun hs => ?_⟩
  rcases hs with hs | ⟨_, hs⟩ <;> cases hs

theorem Complete.adds {channel : Channel E} {messages : List (Message E)} (h : Complete channel messages)
    (hspoken : ¬ channel.silent) (message : Message E) :
    Complete (channel.adding message).1 (messages ++ [message]) := by
  obtain ⟨⟨opening, hshort, rfl⟩, -⟩ := h
  exact ⟨⟨opening, hshort, List.append_assoc _ _ _⟩, fun hs => absurd hs hspoken⟩

theorem Complete.keeps {channel channel' : Channel E} {messages : List (Message E)} (h : Complete channel messages)
    (hfollowups : channel'.followups = channel.followups) (hsilent : channel'.silent → channel.silent) :
    Complete channel' (messages ++ []) := by
  obtain ⟨⟨opening, hshort, hmessages⟩, hnone⟩ := h
  rw [List.append_nil]
  exact ⟨⟨opening, hshort, by rw [hfollowups]; exact hmessages⟩, fun hs => hnone (hsilent hs)⟩

theorem complete_step [DecidableEq E] {channel channel' : Channel E} {messages : List (Message E)}
    {turn : Nat × Call E × Option (Message E)} (h : Complete channel messages)
    (hstep : channel.step turn = some channel') : Complete channel' (messages ++ said [turn]) := by
  obtain ⟨t, call, shown⟩ := turn
  unfold Channel.step at hstep
  split at hstep
  · rename_i hshown
    obtain rfl := Option.some.inj hstep
    dsimp only at hshown
    rw [← hshown]
    obtain ⟨original, followups⟩ := channel
    have hspoken : ∀ o : OriginalResponse E, o ≠ .none → (∀ v, o ≠ .deferral v) →
        ¬ (⟨o, followups⟩ : Channel E).silent := by
      rintro o hn hd (hs | ⟨v, hs⟩)
      · exact hn hs
      · exact hd v hs
    have hmessage := fun m => hspoken (.message m) (by simp) (by simp)
    have hdeleted := hspoken .deleted (by simp) (by simp)
    cases call with
    | reply payload ephemeral =>
      cases original with
      | none => exact h.opens (.inl rfl) [_] (Nat.le_refl 1) _
      | deferral v => exact h.opens (.inr ⟨v, rfl⟩) [_] (Nat.le_refl 1) _
      | message m => exact h.adds (hmessage m) _
      | deleted => exact h.adds hdeleted _
    | defer ephemeral =>
      cases original with
      | none => exact h.keeps rfl fun _ => .inl rfl
      | _ => exact h.keeps rfl id
    | editResponse payload =>
      cases original with
      | deferral v => exact h.opens (.inr ⟨v, rfl⟩) [] (Nat.zero_le 1) _
      | message m => exact h.keeps rfl fun hs => absurd hs (hmessage _)
      | _ => exact h.keeps rfl id
    | deleteResponse =>
      cases original with
      | none => exact h.keeps rfl id
      | _ => exact h.keeps rfl fun hs => absurd hs hdeleted
    | followup payload ephemeral =>
      cases original with
      | none => exact h.keeps rfl id
      | deferral v => exact h.opens (.inr ⟨v, rfl⟩) [_] (Nat.le_refl 1) _
      | message m => exact h.adds (hmessage m) _
      | deleted => exact h.adds hdeleted _
  · cases hstep

theorem complete_run [DecidableEq E] {landings : List (Nat × Call E × Option (Message E))} :
    ∀ {channel channel' : Channel E} {messages : List (Message E)}, Complete channel messages →
      run Channel.step channel landings = some channel' → Complete channel' (messages ++ said landings) := by
  induction landings with
  | nil =>
    intro channel channel' messages h hrun
    cases hrun
    exact h.keeps rfl id
  | cons turn landings ih =>
    intro channel channel' messages h hrun
    obtain ⟨next, hnext, hrest⟩ := Lib.run_cons hrun
    have hsaid : said (turn :: landings) = said [turn] ++ said landings := by simp [said]
    rw [hsaid, ← List.append_assoc]
    exact ih (complete_step h hnext) hrest

section Server

variable {S R : Type} {server : S → Request E → Option (S × R)} {view : S → Channel E} {shows : R → Option (Message E)}

theorem orderly_seen (w : World S E R) (m : Nat × Move E) : Orderly (w.seen view shows) m ↔ Orderly w m := by
  have hholding : ∀ call : Call E, (w.seen view shows).pc m.1 = .holding call ↔ w.pc m.1 = .holding call := by
    intro call
    show (w.pc m.1).map shows = _ ↔ _
    cases w.pc m.1 <;> simp [Pc.map]
  constructor
  · intro h
    refine ⟨fun payload ephemeral visibility hm hpc => h.completed payload ephemeral visibility hm ((hholding _).mpr hpc),
      fun error call plan response hm hpc => ?_⟩
    exact h.answered error call plan (shows response) hm (seen_pc hpc)
  · intro h
    refine ⟨fun payload ephemeral visibility hm hpc => h.completed payload ephemeral visibility hm ((hholding _).mp hpc),
      fun error call plan shown hm hpc => ?_⟩
    change (w.pc m.1).map shows = _ at hpc
    cases hown : w.pc m.1 with
    | landed call plan response => exact h.answered error call plan response hm hown
    | _ =>
      rw [hown] at hpc
      cases hpc

/-- If no followup is let through while there is a deferral to complete, and the answer to
    what has landed arrives: every run of any number of clones, with any server that answers
    as documented, is a conversation, and all that replies and followups said is there, in
    the order of landing: as the original response or as a followup of its own. -/
theorem orderly_conversation [DecidableEq E] (hdocuments : Documents chat server view shows) {start : S}
    (hstart : view start = .empty) {moves : List (Nat × Move E)} {w : World S E R}
    (h : run (step interaction server) (World.start start) moves = some w)
    (horderly : Along (step interaction server) Orderly (World.start start) moves) :
    let landings := observed (step interaction server) (landing server shows) (World.start start) moves
    run Channel.step .empty landings = some (view w.server) ∧
      ∃ opening, opening.length ≤ 1 ∧ said landings = opening ++ (view w.server).followups := by
  intro landings
  have hseen := run_seen hdocuments h
  have halong := (along_map (step_seen hdocuments) (fun w m _ _ => orderly_seen w m) h).mpr horderly
  have hlandings : observed (step interaction chat) (landing chat id) (World.start (view start)) moves = landings :=
    observed_map (step_seen hdocuments) (landing_seen hdocuments) h
  change Along (step interaction chat) Orderly (World.start (view start)) moves at halong
  rw [hstart] at hseen halong hlandings
  have hunanswered : Along (step interaction chat) (Unanswered id) (World.start .empty) moves :=
    @along_within _ _ _ Orderly (Unanswered id) (fun w => LockInv interaction w ∧ ChatInv w ∧ OrderlyInv w)
      (fun w m w' hi hg hs => ⟨lock_moves hi.1 (step_moves hs), chat_moves hi.1 hi.2.1 (step_moves hs),
        orderly_moves hi.1 hi.2.1 hi.2.2 hg (step_moves hs)⟩)
      (fun w m hi _ => orderly_unanswered hi.1 hi.2.2 m) moves _ ⟨lock_start _, chat_start, orderly_start⟩ halong
  have hrun := (conversation_exact hseen).mpr hunanswered
  rw [hlandings] at hrun
  have hempty : Complete (.empty : Channel E) [] := ⟨⟨[], Nat.zero_le 1, rfl⟩, fun _ => rfl⟩
  have hcomplete := complete_run hempty hrun
  rw [List.nil_append] at hcomplete
  exact ⟨hrun, hcomplete.1⟩

end Server

/-- A deferral, the reply that completes it, and a followup by another task. -/
theorem orderly_conversation_two_tasks :
    let interaction : Interaction := ⟨1, 2, .applicationCommand, "token", none, none, none, none, .ok none⟩
    let holding : List (Move Unit) := [.acquire, .decide, .send, .land, .answer, .update, .finish]
    let releasing : List (Move Unit) := [.acquire, .decide, .unlock, .send, .land]
    let calls : List (Move Unit) := .call Context.defer :: holding ++ .call (Context.reply "first") :: holding
    let moves := calls.map (fun move => (0, move)) ++
      (Move.call (Context.followup "second") :: releasing).map fun move => (1, move)
    let first : Message Unit := ⟨some "first", [], false⟩
    let second : Message Unit := ⟨some "second", [], false⟩
    ∃ w, run (step interaction chat) (World.start .empty) moves = some w ∧ w.server = ⟨.message first, [second]⟩ ∧
      ∃ opening, opening.length ≤ 1 ∧
        said (observed (step interaction chat) (landing chat id) (World.start .empty) moves) = opening ++ w.server.followups := by
  intro interaction holding releasing calls moves first second
  refine ⟨_, rfl, rfl, (orderly_conversation chat_documents rfl rfl ?_).2⟩
  -- no answer is lost, and one followup is let through
  iterate 18
    refine ⟨⟨fun _ _ _ hm hpc => (by first | (cases hm; done) | cases hpc), fun _ _ _ _ hm => by cases hm⟩, fun s hs => ?_⟩
    obtain rfl := Option.some.inj hs
  refine ⟨⟨fun _ _ _ _ _ hs => (by cases hs), fun _ _ _ _ hm => by cases hm⟩, fun s hs => ?_⟩
  obtain rfl := Option.some.inj hs
  iterate 3
    refine ⟨⟨fun _ _ _ hm => (by cases hm), fun _ _ _ _ hm => by cases hm⟩, fun s hs => ?_⟩
    obtain rfl := Option.some.inj hs
  trivial

end GloamCommands.Response
