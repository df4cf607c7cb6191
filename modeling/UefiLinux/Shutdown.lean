/-
Leaving for good.  The firmware may keep control at the exit, at a reset and at a wait for
a key that never comes.  Nothing is called after that, and few requests can lead there.
-/
import UefiLinux.Reporting
import UefiLinux.Sessions

namespace UefiLinux

open Progress Journal

/-- A call from which the firmware did not come back. -/
def Event.Final (e : Event) : Prop :=
  e.call.mayNotReturn = true ∧ e.reply.returns = false

/-- The firmware has come back from every new call. -/
abbrev CameBack : Machine → Machine → Prop := Quiet journal fun e => ¬ e.Final

/-- The last new call is the only one that the firmware has not come back from. -/
def LeftBy (e : Event) (m m' : Machine) : Prop :=
  e.Final ∧ ∃ back, m'.trace = m.trace ++ (back ++ [e]) ∧ ∀ f ∈ back, ¬ f.Final

/-- How the calls made tell why a handler stopped. -/
def StopsAs (stop : Stop) (m m' : Machine) : Prop :=
  if stop = .firmwareKept then ∃ e, LeftBy e m m' else CameBack m m'

theorem CameBack.leftBy {m m' m'' : Machine} {e : Event} (hback : CameBack m m')
    (hleft : LeftBy e m' m'') : LeftBy e m m'' := by
  obtain ⟨_, new, htrace, hnew⟩ := hback
  obtain ⟨hfinal, back, htrace', hback'⟩ := hleft
  change m'.trace = m.trace ++ new at htrace
  refine ⟨hfinal, new ++ back, by rw [htrace', htrace]; simp, fun f hf => ?_⟩
  rcases List.mem_append.mp hf with hf | hf
  · exact hnew f hf
  · exact hback' f hf

theorem CameBack.stopsAs {stop : Stop} {m m' m'' : Machine} (hback : CameBack m m')
    (hstops : StopsAs stop m' m'') : StopsAs stop m m'' := by
  unfold StopsAs at hstops ⊢
  split
  · rename_i hkept
    rw [if_pos hkept] at hstops
    obtain ⟨e, hleft⟩ := hstops
    exact ⟨e, hback.leftBy hleft⟩
  · rename_i hkept
    rw [if_neg hkept] at hstops
    exact trans_of CameBack hback hstops

section Handlers

variable {p : Platform} {g : Grant} {α : Type} {x : M α}

theorem Grant.Basic.stops (hx : g.Basic p x) : Ends CameBack StopsAs x := by
  cases hx with
  | @call c hcall =>
      refine ⟨fun m r m' hrun => ?_, fun m stop m' hrun => ?_⟩
      · rw [uefiCallWrapper_run_eq] at hrun
        split at hrun
        · cases hrun
        · rename_i hback
          injection hrun with _ hm
          subst hm
          refine ⟨rfl, [p.answer m c], rfl, fun e he hfinal => hback ?_⟩
          rw [List.mem_singleton.mp he] at hfinal
          have hreturns : (p.answer m c).reply.returns = false := hfinal.2
          have hmay : c.mayNotReturn = true := hfinal.1
          rw [hreturns, hmay]
          rfl
      · rw [uefiCallWrapper_run_eq] at hrun
        split at hrun
        · rename_i hkept
          injection hrun with hstop hm
          subst hstop hm
          rw [Bool.and_eq_true, Bool.not_eq_true'] at hkept
          rw [StopsAs, if_pos rfl]
          exact ⟨p.answer m c, hkept, [], rfl, fun f hf => absurd hf List.not_mem_nil⟩
        · cases hrun
  | store hwrites =>
      refine ⟨fun m r m' hrun => ?_, fun m stop m' hrun => by cases hrun⟩
      injection hrun with _ hm
      exact hm ▸ quiet_of_eq rfl rfl
  | rebind _ slot value =>
      refine ⟨fun m r m' hrun => ?_, fun m stop m' hrun => by cases hrun⟩
      injection hrun with _ hm
      exact hm ▸ quiet_of_eq rfl rfl

/-- A granted program is stopped as the firmware's answers say. -/
theorem Granted.stops (hx : Granted p g x) : Ends CameBack StopsAs x := by
  refine Composed.ends ?_ ?_ ?_ hx
  · exact fun hback hstops => CameBack.stopsAs hback hstops
  · exact fun hbasic => Grant.Basic.stops hbasic
  · intro stop m hstop
    rw [StopsAs, if_neg hstop.1]
    exact refl_of CameBack m

end Handlers

/-- The last call of a request that the firmware may keep control at. -/
def Request.LeavesBy : Request → Call → Prop
  | .fdRead fd _ _, c => fd = 0 ∧ c = .waitForEvent
  | .procExit status, c => c = .exit (if status ≠ 0 then efiEndOfFile else efiSuccess)
  | .procKill pid sig, c => pid = emuPid ∧ sig < 30 ∧ c = .exit efiAborted
  | .powerReboot magic1 magic2 cmd _, c => rebootMagicValid magic1 magic2 ∧ c ∈ resets cmd
  | _, _ => False

/-- Of the calls in a footprint only these need not come back. -/
theorem Request.leavesBy_of_mayNotReturn {m : Machine} {r : Request} {c : Call}
    (hin : c ∈ r.calls m) (hmay : c.mayNotReturn = true) : r.LeavesBy c := by
  cases Request.asks_of_calls hin with
  | wait => exact ⟨rfl, rfl⟩
  | exits => rfl
  | aborts hsig => exact ⟨rfl, hsig, rfl⟩
  | resets hvalid hresets => exact ⟨hvalid, hresets⟩
  | _ => cases hmay

section Sessions

variable {p : Platform} {m m' : Machine} {acts : List Action} {c : SysCall}
  {result : EStateM.Result Stop Machine UInt64}

/-- A call that returns has had every answer; one that stops has stopped as they say. -/
theorem syscallEmuX86_64_stops (p : Platform) (fuel : Nat) (c : SysCall) :
    Ends CameBack StopsAs (syscallEmuX86_64 p fuel c.no c.args) := by
  have hfrom : ∀ m, GrantedFrom p ⟨Set.univ, Set.univ, Set.univ, True⟩ m
      (syscallEmuX86_64 p fuel c.no c.args) := fun m =>
    SysCall.grantedFrom trivial (Or.inr rfl) fuel (Set.subset_univ _) (Set.subset_univ _)
      (Set.subset_univ _)
  refine ⟨fun m w m' hrun => ?_, fun m stop m' hrun => ?_⟩
  all_goals
    obtain ⟨y, hy, hsame⟩ := hfrom m
    obtain ⟨fres, hrun'⟩ := hsame m (Machine.AlikeOn.refl _ m)
    rw [hrun] at hrun'
  · exact hy.stops.1 (m.withFres fres) w m' hrun'.symm
  · exact hy.stops.2 (m.withFres fres) stop m' hrun'.symm

theorem Action.Does.cameBack {act : Action} (hdoes : act.Does p m m') : CameBack m m' := by
  cases hdoes with
  | store address bytes m => exact quiet_of_eq rfl rfl
  | call hends =>
      obtain ⟨fuel, hrun⟩ := hends
      exact (syscallEmuX86_64_stops p fuel _).1 _ _ _ hrun

theorem Session.cameBack (hsession : Session p m acts m') : CameBack m m' :=
  hsession.along fun _ _ _ hdoes => hdoes.cameBack

/-- In a session that goes on the firmware has come back from every call.  When it keeps
control, the call it was given last is the only one it did not come back from, and the
request is a read of the console, an exit, a fatal signal to the program itself or a
reset asked for with the magic numbers. -/
theorem session_ends_at_final_call (hsession : Session p m acts m')
    (hends : c.Ends p m' result) :
    ((∀ s, result ≠ .error .firmwareKept s) → CameBack m (finalState result)) ∧
    ∀ s, result = .error .firmwareKept s →
      ∃ e r, LeftBy e m s ∧ dispatch c.no c.args = .ok r ∧ r.LeavesBy e.call := by
  have hback := hsession.cameBack
  obtain ⟨new, htrace, hnew⟩ := hends.calls
  obtain ⟨fuel, hrun⟩ := hends
  have hstops := syscallEmuX86_64_stops p fuel c
  constructor
  · intro hnever
    cases result with
    | ok w s => exact trans_of CameBack hback (hstops.1 m' w s hrun)
    | error stop s =>
        have hlast := hback.stopsAs (hstops.2 m' stop s hrun)
        have hother : stop ≠ .firmwareKept := by
          rintro rfl
          exact hnever s rfl
        rwa [StopsAs, if_neg hother] at hlast
  · rintro s rfl
    have hlast := hstops.2 m' .firmwareKept s hrun
    rw [StopsAs, if_pos rfl] at hlast
    obtain ⟨e, hleft⟩ := hlast
    have hlist : e ∈ new := by
      obtain ⟨_, back, htrace', _⟩ := hleft
      rw [List.append_cancel_left (htrace.symm.trans htrace')]
      exact List.mem_append_right back List.mem_cons_self
    have hcall := hnew e hlist
    rw [SysCall.calls] at hcall
    cases hdispatch : dispatch c.no c.args with
    | ok r =>
        rw [hdispatch] at hcall
        exact ⟨e, r, hback.leftBy hleft, rfl, Request.leavesBy_of_mayNotReturn hcall hleft.1.1⟩
    | error why =>
        rw [hdispatch] at hcall
        cases hcall

/-- Firmware that never comes back when it need not. -/
def keepingFirmware : Platform :=
  Platform.ofReply fun call => { Reply.ofStatus efiSuccess with returns := !call.mayNotReturn }

/-- The clock is read, and `exit` is called. -/
theorem session_ends_at_final_call_exit :
    ∃ m' s e r, Session keepingFirmware Machine.blank ([] ++ [.call ⟨96, [200]⟩ 0]) m' ∧
      LeftBy e Machine.blank s ∧ dispatch 60 [0] = .ok r ∧ r.LeavesBy e.call := by
  obtain ⟨m', hclock⟩ : ∃ m', Session keepingFirmware Machine.blank
      ([] ++ [.call ⟨96, [200]⟩ 0]) m' :=
    ⟨_, (Run.nil _).snoc (.call (c := ⟨96, [200]⟩) ⟨0, rfl⟩)⟩
  have hexit : SysCall.Ends keepingFirmware ⟨60, [0]⟩ m'
      (.error .firmwareKept (keepingFirmware.after m' (.exit efiSuccess))) := ⟨0, rfl⟩
  obtain ⟨e, r, hleft, hdispatch, hleaves⟩ :=
    (session_ends_at_final_call hclock hexit).2 _ rfl
  exact ⟨m', _, e, r, hclock, hleft, hdispatch, hleaves⟩

end Sessions

end UefiLinux
