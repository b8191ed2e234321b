import QuietQuic.Proto.Admissions
import QuietQuic.Proto.Budget

/-!
# What screening costs

A server screens the datagrams without an active DCID: the limiter is checked, and where it says yes
the pre-filter hashes the DCID for one PSK after the other. `Budget` bounds the checks of a limiter;
here they are the checks that a run of the endpoint makes, with its connections on the way.

* `limits_run`: the limiter of an endpoint is the one its checks leave, and nothing else.
* `screening_within_budget`: the work, and the connections, of any part of a run.
-/

namespace QuietQuic.Proto

open QuietQuic.Lib

namespace RateLimiter

/-! ## A limiter that holds -/

/-- The LRU list is in order, and within the limit. -/
def Holds (rl : RateLimiter) : Prop := ∃ l, rl.Order l ∧ l.length ≤ rl.cap

theorem length_touch {cap : Nat} (hcap : 0 < cap) (src : IpAddr) {l : List IpAddr}
    (hl : l.length ≤ cap) : (touch cap src l).length ≤ cap := by
  unfold touch
  rw [List.length_append, List.length_singleton]
  split
  · rename_i hsrc
    have hpos := List.length_pos_of_mem hsrc
    rw [List.length_erase_of_mem hsrc]
    omega
  · split
    · rw [List.length_tail]
      omega
    · omega

/-- **No `expect` of a check fails**, and the limiter still holds. -/
theorem Holds.check {rl : RateLimiter} (h : rl.Holds) (src : IpAddr) (now : Instant) :
    ∃ c rl', rl.check src now = some (c.ok, rl') ∧ rl.logCheck src now = some (c, rl') ∧
      c.now = now ∧ rl'.Holds ∧ rl'.maxTracked = rl.maxTracked := by
  obtain ⟨l, horder, hlen⟩ := h
  have hafter : ∃ ok rl', rl.check src now = some (ok, rl') ∧ rl'.Holds ∧
      rl'.maxTracked = rl.maxTracked := by
    cases hpass : (rl.global.tryTake now).1 with
    | false =>
      exact ⟨_, _, check_denied hpass, ⟨l, ⟨horder.chain, horder.keys⟩, hlen⟩, rfl⟩
    | true =>
      obtain ⟨rl', heq, hord, hsame, -⟩ := check_passed horder src hpass
      refine ⟨_, rl', heq, ⟨_, hord, ?_⟩, hsame.maxTracked⟩
      rw [hsame.cap]
      exact length_touch rl.cap_pos src hlen
  obtain ⟨ok, rl', hcheck, hholds, hmax⟩ := hafter
  obtain ⟨c, rl'', hlog, hspec⟩ := logCheck_spec ⟨l, horder⟩ src now
  have hlogged := hlog
  rw [logCheck, hcheck] at hlogged
  obtain ⟨rfl, rfl⟩ := Prod.mk.inj (Option.some.inj hlogged)
  exact ⟨_, rl', hcheck, hlog, hspec.now_eq, hholds, hmax⟩

theorem holds_new : RateLimiter.new.Holds := ⟨[], order_withParams .., Nat.zero_le _⟩

end RateLimiter

namespace Endpoint

variable {Q : Quinn} {H : KeyedHash}

/-! ## The checks of a run -/

/-- The check that a call makes: the datagram is a server's, without an active DCID. -/
def checkOf (ep : Endpoint Q) : Call → Option (IpAddr × Instant)
  | .handleDatagram _ now src _ data =>
    if ep.role = .server ∧ ep.isActiveDcid data = false then some (src.ip, now) else none
  | _ => none

/-- The checks of a run. -/
def checks (H : KeyedHash) (ep : Endpoint Q) : List Call → List (IpAddr × Instant)
  | [] => []
  | call :: calls => (ep.checkOf call).toList ++ (ep.step H call).2.checks H calls

/-- What the limiter makes of the call. -/
def checked (ep : Endpoint Q) (call : Call) : Option (Bool × RateLimiter) :=
  (ep.checkOf call).bind fun check => ep.rateLimiter.check check.1 check.2

/-- The call runs the pre-filter: it makes a check, and the limiter says yes. -/
def screens (ep : Endpoint Q) (call : Call) : Bool := ((ep.checked call).map Prod.fst).getD false

/-- How often a run runs the pre-filter. -/
def screenings (H : KeyedHash) (ep : Endpoint Q) : List Call → Nat
  | [] => 0
  | call :: calls => (ep.screens call).toNat + (ep.step H call).2.screenings H calls

/-- The call leaves the limiter its check leaves, or the one there was. -/
theorem limiter_step (ep : Endpoint Q) (call : Call) :
    (ep.step H call).2.rateLimiter = ((ep.checked call).map Prod.snd).getD ep.rateLimiter := by
  cases call with
  | handleDatagram ord now src minute data =>
    have hgate : (ep.step H (.handleDatagram ord now src minute data)).2.rateLimiter =
        (ep.gate H now src minute data).2.rateLimiter := by
      simp only [step, handleDatagram]
      split <;> rfl
    rw [hgate, gate, checked, checkOf]
    by_cases hscreened : ep.role = .server ∧ ep.isActiveDcid data = false
    · rw [if_pos hscreened, if_pos hscreened, Option.bind_some]
      have hleft : (ep.screen H now src minute data).2.rateLimiter =
          ((ep.rateLimiter.check src.ip now).getD (false, ep.rateLimiter)).2 := by
        unfold screen
        dsimp only
        split
        · split <;> rfl
        · rfl
      rw [hleft]
      cases ep.rateLimiter.check src.ip now <;> rfl
    · rw [if_neg hscreened, if_neg hscreened]
      rfl
  | _ => rfl

/-- **The limiter of an endpoint** is the one its checks leave; no `expect` of theirs fails. -/
theorem limits_run (calls : List Call) {ep : Endpoint Q} (h : ep.rateLimiter.Holds) :
    (ep.run H calls).rateLimiter.Holds ∧
      (ep.run H calls).rateLimiter.maxTracked = ep.rateLimiter.maxTracked ∧
      ∃ log, ep.rateLimiter.checkAll (ep.checks H calls) =
          some (log, (ep.run H calls).rateLimiter) ∧
        log.map Checked.now = (ep.checks H calls).map Prod.snd ∧
        log.countP Checked.ok = ep.screenings H calls := by
  induction calls generalizing ep with
  | nil => exact ⟨h, rfl, [], rfl, rfl, rfl⟩
  | cons call calls ih =>
    have hlimiter := limiter_step (H := H) ep call
    rw [checks, screenings, screens]
    cases hcheck : ep.checkOf call with
    | none =>
      have hnone : ep.checked call = none := by rw [checked, hcheck, Option.bind_none]
      rw [hnone] at hlimiter ⊢
      have hsame : (ep.step H call).2.rateLimiter = ep.rateLimiter := hlimiter
      obtain ⟨hholds, hmax, log, hrun, hnow, hok⟩ := ih (hsame ▸ h)
      refine ⟨hholds, hmax.trans (congrArg _ hsame), log, ?_, hnow, ?_⟩
      · rw [← hsame]
        exact hrun
      · rw [hok]
        exact (Nat.zero_add _).symm
    | some check =>
      obtain ⟨c, rl, hchecked, hlog, hinstant, hholds₁, hmax₁⟩ := h.check check.1 check.2
      have hsome : ep.checked call = some (c.ok, rl) := by
        rw [checked, hcheck, Option.bind_some, hchecked]
      rw [hsome] at hlimiter ⊢
      have hleft : (ep.step H call).2.rateLimiter = rl := hlimiter
      obtain ⟨hholds, hmax, log, hrun, hnow, hok⟩ := ih (hleft ▸ hholds₁)
      rw [hleft] at hrun hmax
      refine ⟨hholds, hmax.trans hmax₁, c :: log, ?_, ?_, ?_⟩
      · exact RateLimiter.checkAll_cons_iff.mpr ⟨c, rl, log, hlog, hrun, rfl⟩
      · rw [List.map_cons, hnow, hinstant]
        rfl
      · rw [List.countP_cons, hok, Nat.add_comm]
        cases c.ok <;> rfl

/-! ## The connections of a run -/

/-- A datagram that is admitted was screened. -/
theorem screens_of_admitted {ep : Endpoint Q} {ord : IterOrder} {now : Instant} {src : SocketAddr}
    {minute : UInt32} {data : List UInt8} {idx : Nat}
    (h : (ep.gate H now src minute data).1 = .admitted idx) :
    ep.screens (.handleDatagram ord now src minute data) = true := by
  obtain ⟨hserver, hactive, -⟩ := gate_admitted h
  rw [gate, if_pos ⟨hserver, hactive⟩, screen_fst] at h
  have hsays : ep.limiterSays now src = true := by
    by_contra hno
    rw [if_neg hno] at h
    exact absurd h (by simp)
  rw [screens, checked, checkOf, if_pos ⟨hserver, hactive⟩, Option.bind_some]
  unfold limiterSays at hsays
  cases hcheck : ep.rateLimiter.check src.ip now with
  | none =>
    rw [hcheck] at hsays
    exact absurd hsays (by simp)
  | some r =>
    rw [hcheck] at hsays
    exact hsays

/-- Every connection a run opens costs a run of the pre-filter. -/
theorem opened_le_screenings (calls : List Call) (ep : Endpoint Q) :
    (ep.opened H calls).length ≤ ep.screenings H calls := by
  induction calls generalizing ep with
  | nil => exact Nat.le_refl 0
  | cons call calls ih =>
    have hone : (ep.opens H call).length ≤ (ep.screens call).toNat := by
      rcases ep.opens_cases (H := H) call with ⟨hnone, -⟩ | ⟨ord, now, src, minute, data, idx, entry,
        ch, client, conn, rfl, hgate, -, -, -, -, hopens⟩
      · rw [hnone]
        exact Nat.zero_le _
      · rw [hopens, screens_of_admitted hgate]
        exact Nat.le_refl 1
    show (ep.opens H call ++ (ep.step H call).2.opened H calls).length ≤ _
    rw [List.length_append]
    exact Nat.add_le_add hone (ih _)

/-- **What strangers can make a server do**, in any part of any run, with any clocks. The rate
limiter is the one that the checks of the run leave; no `expect` of it fails and it tracks at most
`MAX_TRACKED_SOURCES` sources; the pre-filter runs at most as often as the global bucket allows for
the time that passes, and no part of a run opens more connections than that. -/
theorem screening_within_budget (H : KeyedHash) (tls : Tls Q) (secrets : ServerSecrets)
    (ep₀ : Endpoint Q) (hnew : newServer tls secrets = .ok ep₀) (before part : List Call) :
    (∃ log, ep₀.rateLimiter.checkAll (ep₀.checks H before) =
        some (log, (ep₀.run H before).rateLimiter)) ∧
      (∀ src now, ((ep₀.run H before).rateLimiter.check src now).isSome) ∧
      (ep₀.run H before).rateLimiter.perSource.keys.length ≤ RateLimiter.MAX_TRACKED_SOURCES ∧
      ((ep₀.run H before).opened H part).length ≤ (ep₀.run H before).screenings H part ∧
      ((ep₀.run H before).screenings H part : ℚ) ≤ RateLimiter.DEFAULT_GLOBAL_CAPACITY +
        RateLimiter.DEFAULT_GLOBAL_REFILL *
          TokenBucket.growth ((ep₀.checks H before).map Prod.snd)
            (((ep₀.run H before).checks H part).map Prod.snd) := by
  have hlimiter : ep₀.rateLimiter = RateLimiter.new := by
    unfold newServer at hnew
    split at hnew
    · exact absurd hnew (by simp)
    · rw [← Except.ok.inj hnew]
  have hholds₀ : ep₀.rateLimiter.Holds := hlimiter ▸ RateLimiter.holds_new
  obtain ⟨hholds, hmax, log, hbefore, hnow, -⟩ := limits_run (H := H) before hholds₀
  obtain ⟨-, -, log', hpart, hnow', hok⟩ := limits_run (H := H) part hholds
  refine ⟨⟨log, hbefore⟩, fun src now => ?_, ?_, opened_le_screenings part _, ?_⟩
  · obtain ⟨c, rl, hcheck, -⟩ := hholds.check src now
    rw [hcheck]
    rfl
  · obtain ⟨l, horder, hlen⟩ := hholds
    rw [horder.length_keys]
    refine hlen.trans ?_
    rw [RateLimiter.cap, hmax, hlimiter]
    decide
  · rw [← hok, ← hnow, ← hnow']
    have hglobal := (RateLimiter.checkAll_run ⟨_, hholds₀.choose_spec.1⟩ hbefore).global.2
    refine (RateLimiter.checkAll_run ⟨_, hholds.choose_spec.1⟩ hpart).ok_within_global
      (by decide +kernel) (by decide +kernel) ?_
    rw [hglobal, hlimiter]
    rfl

/-- A first flight and its replay are both screened, for one connection. -/
theorem screening_within_budget_replayed :
    newServer miniTls miniSecrets = .ok miniServer ∧
      (miniServer.opened zeroHash flightTwice).length = 1 ∧
      miniServer.screenings zeroHash flightTwice = 2 ∧
      (miniServer.screenings zeroHash flightTwice : ℚ) ≤ RateLimiter.DEFAULT_GLOBAL_CAPACITY +
        RateLimiter.DEFAULT_GLOBAL_REFILL *
          TokenBucket.growth [] ((miniServer.checks zeroHash flightTwice).map Prod.snd) := by
  obtain ⟨-, -, -, -, hwork⟩ := screening_within_budget zeroHash miniTls miniSecrets miniServer
    miniServer_new [] flightTwice
  exact ⟨miniServer_new, by decide +kernel, by decide +kernel, hwork⟩

end Endpoint

end QuietQuic.Proto
