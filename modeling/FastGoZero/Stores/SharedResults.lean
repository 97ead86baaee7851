import FastGoZero.Stores.CacheNode

/-!
# What the callers of a shared call receive

Each call of the barrier has one caller that leads it until its wait group is done. What the
others receive is what it left, unless its query panicked: then the results are nil and a caller
that waits for them panics too. As long as nobody waits for a call whose query panics, every other
caller returns, and without an error it holds what the cache or the query of its call produced.
-/

namespace FastGoZero.Stores

open Lib Lib.Concurrent List Option Multiset

universe u v

variable {V : Type u} {E : Type v}

namespace TakePosition

/-- The call that the caller has made and not completed. -/
def lead : TakePosition E → Option Nat
  | gets c | queries c | marshals c | deletes c _ | completes c _ => some c
  | _ => none

def leads (c : Nat) (position : TakePosition E) : Nat := if position.lead = some c then 1 else 0

def registers (c : Nat) : TakePosition E → Prop
  | gets d | queries d | marshals d | deletes d _ => d = c
  | _ => False

def panics (c : Nat) : TakePosition E → Prop
  | deletes d true => d = c
  | completes d true => d = c
  | _ => False

def ended : TakePosition E → Bool
  | returned _ _ => true
  | panicked _ => true
  | _ => false

def work : TakePosition E → Nat
  | starts => 7
  | waits _ => 1
  | gets _ => 6
  | queries _ => 5
  | marshals _ => 4
  | deletes _ _ => 3
  | completes _ _ => 2
  | reads _ => 1
  | returned _ _ => 0
  | panicked _ => 0

end TakePosition

/-- The call has left a result. -/
def Flight.Settled (flight : Flight V E) : Prop := flight.err ≠ none ∨ flight.val ≠ none

/-- The encoded value is that of what was produced. -/
def Flight.Sound (n : CacheNode V E) (flight : Flight V E) : Prop :=
  ∀ data, flight.val = some data → ∃ u, flight.produced = some u ∧ n.marshal u = .ok data

/-- The value is what the call produced, or was decoded from it. -/
def Holds (n : CacheNode V E) (g : FlightGroup V E) (c : Nat) (given v : V) : Prop :=
  ∃ flight, g.made[c]? = some flight ∧ flight.waits = false ∧
    ∃ u, flight.produced = some u ∧
      (v = u ∨ ∃ data, n.marshal u = .ok data ∧ n.unmarshal data given = (v, none))

/-- What the position of a caller says of the call it takes part in. -/
def Fits (n : CacheNode V E) (g : FlightGroup V E) (l : Caller V E) : Prop :=
  match l.position with
  | .starts => l.v = l.given
  | .waits c => l.v = l.given ∧
      ∃ flight, g.made[c]? = some flight ∧ (flight.waits = false → flight.Settled)
  | .gets c | .queries c =>
      ∃ flight, g.made[c]? = some flight ∧ flight.waits = true ∧ flight.val = none
  | .marshals c => ∃ flight, g.made[c]? = some flight ∧ flight.waits = true ∧
      flight.val = none ∧ flight.produced = some l.v
  | .deletes c panics | .completes c panics =>
      ∃ flight, g.made[c]? = some flight ∧ flight.waits = true ∧
        (panics = false → flight.Settled ∧ (flight.err = none → flight.produced = some l.v))
  | .reads c => ∃ flight, g.made[c]? = some flight ∧ flight.waits = false ∧
      (flight.err = none → flight.produced = some l.v)
  | .returned c err => err = none → Holds n g c l.given l.v
  | .panicked own => own = true

/-- Nobody waits for a call whose query has panicked. -/
def Clear (crowd : Multiset (Caller V E)) : Prop :=
  ∀ c, ∀ leader ∈ crowd, leader.position.panics c → ∀ l ∈ crowd, l.position ≠ .waits c

def FlightGroup.leaders (g : FlightGroup V E) (c : Nat) : Nat :=
  g.made[c]?.elim 0 fun flight => flight.waits.toNat

structure Sane (n : CacheNode V E) (g : FlightGroup V E) (crowd : Multiset (Caller V E)) :
    Prop where
  fits : ∀ l ∈ crowd, Fits n g l
  sound : ∀ flight ∈ g.made, flight.Sound n
  leaders : ∀ c, total (fun l : Caller V E => l.position.leads c) crowd = g.leaders c
  registered : ∀ c, g.calls = some c → ∃ l ∈ crowd, l.position.registers c
  clear : Clear crowd

/-- The moves that the others survive: no query panics while another caller waits for its call,
and no caller joins a call whose query has panicked. -/
def Undisturbed (s : State (FlightGroup V E) (Caller V E)) : Move (Answer V E) → Prop
  | .act i .panic => ∀ l c, s.routines[i]? = some l → l.position = .queries c →
      ∀ other ∈ s.routines, other.position ≠ .waits c
  | .act i .none => ∀ l c, s.routines[i]? = some l → l.position = .starts →
      s.shared.calls = some c → ∀ other ∈ s.routines, ¬ other.position.panics c
  | _ => True

variable {n : CacheNode V E} {g g' : FlightGroup V E} {rest : Multiset (Caller V E)}
  {l after : Caller V E} {c : Nat} {flight : Flight V E} {s : State (FlightGroup V E) (Caller V E)}
  {position : TakePosition E} {answer : Answer V E}

theorem FlightGroup.made_modify (g : FlightGroup V E) (c d : Nat)
    (change : Flight V E → Flight V E) :
    (g.modify c change).made[d]? = if d = c then g.made[d]?.map change else g.made[d]? := by
  rw [modify, getElem?_modify]
  by_cases same : c = d
  · simp [same]
  · simp [same, Ne.symm same]

theorem FlightGroup.made_modify_self (found : g.made[c]? = some flight)
    (change : Flight V E → Flight V E) : (g.modify c change).made[c]? = some (change flight) := by
  rw [made_modify, if_pos rfl, found, map_some]

open TakePosition FlightGroup

/-- What a caller says of its call is not touched by a change of another call, nor by one of its
own call that it does not lead. -/
theorem Fits.modify (fits : Fits n g l) (found : g.made[c]? = some flight)
    (waits : flight.waits = true) (other : l.position.lead ≠ some c)
    {change : Flight V E → Flight V E}
    (ready : (change flight).waits = false → l.position = .waits c → (change flight).Settled) :
    Fits n (g.modify c change) l := by
  have done : ∀ {d : Nat} {f : Flight V E}, g.made[d]? = some f → f.waits = false →
      (g.modify c change).made[d]? = some f := by
    intro d f here ended
    rw [made_modify, if_neg]
    · exact here
    · rintro rfl
      rw [some.inj (here.symm.trans found), waits] at ended
      exact absurd ended (by simp)
  have elsewhere : ∀ {d : Nat}, d ≠ c → (g.modify c change).made[d]? = g.made[d]? := by
    intro d differs
    rw [made_modify, if_neg differs]
  unfold Fits at fits ⊢
  unfold lead at other
  cases position : l.position with
  | starts | panicked => simpa [position] using fits
  | waits d =>
    simp only [position] at fits ⊢
    obtain ⟨same, f, here, settled⟩ := fits
    refine ⟨same, ?_⟩
    by_cases own : d = c
    · subst own
      obtain rfl := some.inj (here.symm.trans found)
      exact ⟨change f, made_modify_self here change, fun ended => ready ended position⟩
    · exact ⟨f, by rw [elsewhere own, here], settled⟩
  | gets d | queries d | marshals d | deletes d panics | completes d panics =>
    simp only [position] at fits other ⊢
    rwa [elsewhere (by simpa using other)]
  | reads d =>
    simp only [position] at fits ⊢
    obtain ⟨f, here, ended, keeps⟩ := fits
    exact ⟨f, done here ended, ended, keeps⟩
  | returned d err =>
    simp only [position] at fits ⊢
    intro none
    obtain ⟨f, here, ended, keeps⟩ := fits none
    exact ⟨f, done here ended, ended, keeps⟩

/-- The calls that were there are unchanged. -/
theorem Fits.mono (fits : Fits n g l)
    (kept : ∀ (d : Nat) f, g.made[d]? = some f → g'.made[d]? = some f) : Fits n g' l := by
  unfold Fits at fits ⊢
  split at fits
  case h_1 => exact fits
  case h_2 =>
    obtain ⟨same, f, here, settled⟩ := fits
    exact ⟨same, f, kept _ f here, settled⟩
  case h_9 =>
    intro none
    obtain ⟨f, here, rest⟩ := fits none
    exact ⟨f, kept _ f here, rest⟩
  case h_10 => exact fits
  all_goals
    obtain ⟨f, here, rest⟩ := fits
    exact ⟨f, kept _ f here, rest⟩

theorem TakePosition.lead_of_registers (inMap : position.registers c) : position.lead = some c := by
  cases position <;> simp_all [registers, lead]

/-- The call that a caller leads is not completed. -/
theorem Fits.waits_of_lead (fits : Fits n g l) (lead : l.position.lead = some c) :
    ∃ flight, g.made[c]? = some flight ∧ flight.waits = true := by
  unfold Fits at fits
  cases position : l.position <;> simp only [position, TakePosition.lead, reduceCtorEq] at fits lead
  all_goals
    cases lead
    obtain ⟨flight, found, waits, _⟩ := fits
    exact ⟨flight, found, waits⟩

theorem Clear.cons (clear : Clear (l ::ₘ rest))
    (panics : ∀ c, after.position.panics c → ∀ other ∈ rest, other.position ≠ .waits c)
    (waits : ∀ c, after.position = .waits c → ∀ other ∈ rest, ¬ other.position.panics c) :
    Clear (after ::ₘ rest) := by
  intro c leader leads panicked other mem waiting
  rcases mem_cons.mp leads with rfl | old <;> rcases mem_cons.mp mem with rfl | present
  · rwa [waiting] at panicked
  · exact panics c panicked other present waiting
  · exact waits c waiting leader old panicked
  · exact clear c leader (mem_cons_of_mem old) panicked other (mem_cons_of_mem present) waiting

theorem Clear.replace (clear : Clear (l ::ₘ rest))
    (panics : ∀ c, after.position.panics c → l.position.panics c)
    (waits : ∀ c, after.position = .waits c → l.position = .waits c) : Clear (after ::ₘ rest) := by
  apply clear.cons
  · intro c panicked other mem
    exact clear c l (mem_cons_self _ _) (panics c panicked) other (mem_cons_of_mem mem)
  · intro c waiting other mem panicked
    exact clear c other (mem_cons_of_mem mem) panicked l (mem_cons_self _ _) (waits c waiting)

open CacheNode

namespace Sane

variable (sane : Sane n g (l ::ₘ rest))
include sane

theorem fits_self : Fits n g l := sane.fits l (mem_cons_self _ _)

theorem fits_rest {other : Caller V E} (mem : other ∈ rest) : Fits n g other :=
  sane.fits other (mem_cons_of_mem mem)

theorem leaders_cons (d : Nat) :
    l.position.leads d + total (fun l : Caller V E => l.position.leads d) rest = g.leaders d := by
  rw [← sane.leaders d, total_cons]

theorem lead_unique (lead : l.position.lead = some c) {other : Caller V E}
    (mem : other ∈ rest) : other.position.lead ≠ some c := by
  intro second
  have counted := sane.leaders_cons c
  have one : l.position.leads c = 1 := if_pos lead
  have another : 1 ≤ total (fun l : Caller V E => l.position.leads c) rest := by
    have least := le_total (fun l : Caller V E => l.position.leads c) mem
    have here : other.position.leads c = 1 := if_pos second
    omega
  have most : g.leaders c ≤ 1 := by
    rw [FlightGroup.leaders]
    cases g.made[c]? with
    | none => exact Nat.zero_le 1
    | some flight => exact Bool.toNat_le _
  omega

theorem replace (fitsAfter : Fits n g' after) (fitsRest : ∀ other ∈ rest, Fits n g' other)
    (sound : ∀ flight ∈ g'.made, flight.Sound n)
    (leaders : ∀ d, g'.leaders d + l.position.leads d = g.leaders d + after.position.leads d)
    (registered : ∀ d, g'.calls = some d →
      (g.calls = some d ∧ (l.position.registers d → after.position.registers d)) ∨
        after.position.registers d) (clear : Clear (after ::ₘ rest)) :
    Sane n g' (after ::ₘ rest) where
  fits := by
    intro other mem
    rcases mem_cons.mp mem with rfl | old
    · exact fitsAfter
    · exact fitsRest other old
  sound := sound
  leaders := by
    intro d
    have before := sane.leaders_cons d
    have now := leaders d
    rw [total_cons]
    omega
  registered := by
    intro d entry
    rcases registered d entry with ⟨old, keeps⟩ | self
    · obtain ⟨leader, mem, registers⟩ := sane.registered d old
      rcases mem_cons.mp mem with rfl | other
      · exact ⟨after, mem_cons_self _ _, keeps registers⟩
      · exact ⟨leader, mem_cons_of_mem other, registers⟩
    · exact ⟨after, mem_cons_self _ _, self⟩
  clear := clear

/-- The caller moves on and the calls stay as they are. -/
theorem stay (fitsAfter : Fits n g after) (lead : after.position.lead = l.position.lead)
    (registers : ∀ d, l.position.registers d → after.position.registers d)
    (clear : Clear (after ::ₘ rest)) : Sane n g (after ::ₘ rest) := by
  refine sane.replace fitsAfter (fun other => sane.fits_rest) sane.sound ?_ ?_ clear
  · intro d
    rw [leads, leads, lead]
  · exact fun d entry => Or.inl ⟨entry, registers d⟩

theorem sound_modify (found : g.made[c]? = some flight) {change : Flight V E → Flight V E}
    (sound : (change flight).Sound n) : ∀ flight ∈ (g.modify c change).made, flight.Sound n := by
  intro other mem
  obtain ⟨d, here⟩ := mem_iff_getElem?.mp mem
  rw [made_modify] at here
  split_ifs at here with same
  · rw [same, found, map_some, some.injEq] at here
    exact here ▸ sound
  · exact sane.sound other (mem_of_getElem? here)

theorem change (lead : l.position.lead = some c) (found : g.made[c]? = some flight)
    (waits : flight.waits = true) {change : Flight V E → Flight V E}
    (open_ : (change flight).waits = true) (sound : (change flight).Sound n)
    (leadAfter : after.position.lead = some c)
    (registers : ∀ d, l.position.registers d → after.position.registers d)
    (fitsAfter : Fits n (g.modify c change) after) (clear : Clear (after ::ₘ rest)) :
    Sane n (g.modify c change) (after ::ₘ rest) := by
  refine sane.replace fitsAfter ?_ (sane.sound_modify found sound) ?_ ?_ clear
  · intro other mem
    exact (sane.fits_rest mem).modify found waits (sane.lead_unique lead mem)
      fun ended => absurd (open_.symm.trans ended) (by simp)
  · intro d
    have same : (g.modify c change).leaders d = g.leaders d := by
      rw [FlightGroup.leaders, FlightGroup.leaders, made_modify]
      split_ifs with own
      · simp [own, found, open_, waits]
      · rfl
    rw [same, leads, leads, lead, leadAfter]
  · exact fun d entry => Or.inl ⟨entry, registers d⟩

/-- The function of the leading caller goes on or returns. -/
theorem lead_change (lead : l.position.lead = some c) (found : g.made[c]? = some flight)
    {change : Flight V E → Flight V E} (open_ : (change flight).waits = flight.waits)
    (sound : (change flight).Sound n) (v : V) (registers : position.registers c)
    (calm : ∀ d, ¬ position.panics d)
    (fits : (change flight).waits = true → Fits n (g.modify c change) (l.move v position)) :
    Sane n (g.modify c change) (l.move v position ::ₘ rest) := by
  obtain ⟨other, here, waits⟩ := sane.fits_self.waits_of_lead lead
  cases here.symm.trans found
  have stillOpen := open_.trans waits
  have leadAfter := lead_of_registers registers
  refine sane.change lead found waits stillOpen sound leadAfter ?_ (fits stillOpen) ?_
  · intro d before
    have same := (lead_of_registers before).symm.trans lead
    exact some.inj same ▸ registers
  · refine sane.clear.replace (fun d panics => absurd panics (calm d)) ?_
    intro d waiting
    rw [Caller.move_position] at waiting
    rw [waiting] at registers
    exact registers.elim

omit sane

variable {given v : V}

theorem join (sane : Sane n g (⟨given, v, .starts⟩ ::ₘ rest)) (entry : g.calls = some c)
    (calm : ∀ other ∈ rest, ¬ other.position.panics c) :
    Sane n g (⟨given, v, .waits c⟩ ::ₘ rest) := by
  obtain ⟨leader, mem, registers⟩ := sane.registered c entry
  obtain ⟨flight, found, waits⟩ :=
    (sane.fits leader mem).waits_of_lead (lead_of_registers registers)
  refine sane.stay ⟨sane.fits_self, flight, found, fun ended => ?_⟩ rfl nofun ?_
  · rw [waits] at ended
    exact absurd ended (by simp)
  · refine sane.clear.cons (by simp [panics]) fun d waiting => ?_
    cases waiting
    exact calm

theorem create (sane : Sane n g (⟨given, v, .starts⟩ ::ₘ rest)) :
    Sane n g.create (⟨given, v, .gets g.made.length⟩ ::ₘ rest) := by
  have kept : ∀ (d : Nat) f, g.made[d]? = some f → g.create.made[d]? = some f := by
    intro d f here
    rwa [FlightGroup.create, getElem?_append_left (List.getElem?_eq_some_iff.mp here).1]
  have new : g.create.made[g.made.length]? = some ⟨none, none, true, none⟩ := by
    simp [FlightGroup.create]
  refine sane.replace ⟨_, new, rfl, rfl⟩ (fun other mem => (sane.fits_rest mem).mono kept)
    ?_ ?_ ?_ ?_
  · intro flight mem
    rcases mem_append.mp mem with old | fresh
    · exact sane.sound flight old
    · rw [List.mem_singleton.mp fresh]
      intro data here
      simp at here
  · intro d
    rw [FlightGroup.leaders, FlightGroup.leaders]
    rcases Nat.lt_trichotomy d g.made.length with before | rfl | later
    · have other : g.made.length ≠ d := Nat.ne_of_gt before
      rw [FlightGroup.create, getElem?_append_left before]
      simp [leads, lead, other]
    · simp [FlightGroup.create, leads, lead]
    · have other : g.made.length ≠ d := Nat.ne_of_lt later
      have beyond : g.create.made.length ≤ d := by
        rwa [FlightGroup.create, length_append]
      rw [getElem?_eq_none beyond, getElem?_eq_none (Nat.le_of_lt later)]
      simp [leads, lead, other]
  · intro d entry
    exact Or.inr (some.inj entry)
  · exact sane.clear.replace (by simp [panics]) (by simp)

/-- A caller that has waited receives the results. -/
theorem receive (sane : Sane n g (⟨given, v, .waits c⟩ ::ₘ rest)) (found : g.made[c]? = some flight)
    (done : flight.waits = false) :
    Sane n g (⟨given, (n.receive flight c v).1, (n.receive flight c v).2⟩ ::ₘ rest) := by
  obtain ⟨same, other, here, settled⟩ := sane.fits_self
  obtain rfl := some.inj (here.symm.trans found)
  have sound := sane.sound other (mem_of_getElem? found)
  unfold receive
  split
  case h_1 e _ =>
    refine sane.stay (fun isNone => absurd isNone (by simp)) rfl nofun ?_
    exact sane.clear.replace (by simp [panics]) (by simp)
  case h_2 noErr noVal =>
    rcases settled done with err | val
    · exact absurd noErr err
    · exact absurd noVal val
  case h_3 data noErr hasVal =>
    obtain ⟨u, produced, encoded⟩ := sound data hasVal
    refine sane.stay ?_ rfl nofun ?_
    · intro decoded
      refine ⟨other, found, done, u, produced, Or.inr ⟨data, encoded, ?_⟩⟩
      rw [← decoded, show given = v from same.symm]
    · exact sane.clear.replace (by simp [panics]) (by simp)

theorem produce (sane : Sane n g (⟨given, v, position⟩ ::ₘ rest))
    (leading : position = .gets c ∨ position = .queries c) (w : V) :
    Sane n (g.produce c w) (⟨given, w, .marshals c⟩ ::ₘ rest) := by
  obtain ⟨flight, found, waits, val⟩ :
      ∃ flight, g.made[c]? = some flight ∧ flight.waits = true ∧ flight.val = none := by
    rcases leading with rfl | rfl <;> exact sane.fits_self
  have lead : position.lead = some c := by
    rcases leading with rfl | rfl <;> rfl
  refine sane.lead_change lead found rfl ?_ w rfl (by simp [panics]) ?_
  · intro data here
    rw [val] at here
    simp at here
  · exact fun stillOpen => ⟨_, made_modify_self found _, stillOpen, val, rfl⟩

theorem fail (sane : Sane n g (⟨given, v, position⟩ ::ₘ rest)) (registers : position.registers c)
    (w : V) (e : E) :
    Sane n (g.finish c none (some e)) (⟨given, w, .deletes c false⟩ ::ₘ rest) := by
  have lead := lead_of_registers registers
  obtain ⟨flight, found, waits⟩ := sane.fits_self.waits_of_lead lead
  refine sane.lead_change lead found rfl ?_ w rfl (by simp [panics]) ?_
  · intro data here
    simp at here
  · intro stillOpen
    refine ⟨_, made_modify_self found _, stillOpen, fun _ => ⟨Or.inl (by simp), ?_⟩⟩
    intro noError
    simp at noError

theorem encode (sane : Sane n g (⟨given, v, .marshals c⟩ ::ₘ rest)) {data : Str}
    (encoded : n.marshal v = .ok data) :
    Sane n (g.finish c (some data) none) (⟨given, v, .deletes c false⟩ ::ₘ rest) := by
  obtain ⟨flight, found, waits, val, produced⟩ := sane.fits_self
  refine sane.lead_change rfl found rfl ?_ v rfl (by simp [panics]) ?_
  · rintro other ⟨⟩
    exact ⟨v, produced, encoded⟩
  · exact fun stillOpen => ⟨_, made_modify_self found _, stillOpen,
      fun _ => ⟨Or.inr (by simp), fun _ => produced⟩⟩

theorem toQuery (sane : Sane n g (⟨given, v, .gets c⟩ ::ₘ rest)) (w : V) :
    Sane n g (⟨given, w, .queries c⟩ ::ₘ rest) := by
  refine sane.stay sane.fits_self rfl (fun _ => id) ?_
  exact sane.clear.replace (by simp [panics]) (by simp)

/-- The query panics while nobody waits for its call. -/
theorem panic (sane : Sane n g (⟨given, v, .queries c⟩ ::ₘ rest))
    (calm : ∀ other ∈ rest, other.position ≠ .waits c) :
    Sane n g (⟨given, v, .deletes c true⟩ ::ₘ rest) := by
  obtain ⟨flight, found, waits, _⟩ := sane.fits_self
  refine sane.stay ⟨flight, found, waits, by simp⟩ rfl (fun _ => id) ?_
  refine sane.clear.cons (fun d panicked => ?_) (by simp)
  obtain rfl : c = d := panicked
  exact calm

theorem delete {panics : Bool} (sane : Sane n g (⟨given, v, .deletes c panics⟩ ::ₘ rest)) :
    Sane n g.delete (⟨given, v, .completes c panics⟩ ::ₘ rest) := by
  refine sane.replace sane.fits_self (fun other mem => (sane.fits_rest mem).mono fun _ _ => id)
    sane.sound (fun d => rfl) ?_ ?_
  · intro d entry
    simp [FlightGroup.delete] at entry
  · refine sane.clear.replace ?_ (by simp)
    cases panics <;> exact fun d here => here

/-- The wait group is done, and the callers that wait can go on. -/
theorem complete {panics : Bool} (sane : Sane n g (⟨given, v, .completes c panics⟩ ::ₘ rest)) :
    Sane n (g.complete c)
      (⟨given, v, if panics then .panicked true else .reads c⟩ ::ₘ rest) := by
  obtain ⟨flight, found, waits, settled⟩ := sane.fits_self
  have done := made_modify_self found fun flight : Flight V E =>
    { flight with waits := false }
  have noLead : (if panics then .panicked true else .reads c : TakePosition E).lead = none := by
    cases panics <;> rfl
  refine sane.replace ?_ ?_ ?_ ?_ ?_ ?_
  · cases panics with
    | true => rfl
    | false => exact ⟨_, done, rfl, (settled rfl).2⟩
  · intro other mem
    refine (sane.fits_rest mem).modify found waits (sane.lead_unique rfl mem) ?_
    intro _ waiting
    cases panics with
    | false => exact (settled rfl).1
    | true => exact absurd waiting (sane.clear c _ (mem_cons_self _ _) rfl other
        (mem_cons_of_mem mem))
  · exact sane.sound_modify found (sane.sound flight (mem_of_getElem? found))
  · intro d
    rw [leads, leads, noLead, lead, FlightGroup.leaders,
      FlightGroup.leaders, FlightGroup.complete, made_modify]
    by_cases same : d = c
    · simp [same, found, waits]
    · simp [same, Ne.symm same]
  · exact fun d entry => Or.inl ⟨entry, False.elim⟩
  · refine sane.clear.replace ?_ ?_
    · cases panics <;> simp [panics]
    · cases panics <;> simp

theorem read (sane : Sane n g (⟨given, v, .reads c⟩ ::ₘ rest)) (found : g.made[c]? = some flight) :
    Sane n g (⟨given, v, .returned c flight.err⟩ ::ₘ rest) := by
  obtain ⟨other, here, done, produced⟩ := sane.fits_self
  obtain rfl := some.inj (here.symm.trans found)
  refine sane.stay ?_ rfl nofun ?_
  · exact fun noError => ⟨other, found, done, v, produced noError, Or.inl rfl⟩
  · exact sane.clear.replace (by simp [panics]) (by simp)

end Sane

/-- A step that disturbs nobody keeps the callers sane. -/
theorem Sane.step (sane : Sane n g (l ::ₘ rest)) (answer : Answer V E)
    (alone : ∀ c, answer = .panic → l.position = .queries c →
      ∀ other ∈ rest, other.position ≠ .waits c)
    (calm : ∀ c, answer = .none → l.position = .starts → g.calls = some c →
      ∀ other ∈ rest, ¬ other.position.panics c) :
    (n.proceed g l.v l.position answer).elim True fun next =>
      Sane n next.1 (l.move next.2.1 next.2.2 ::ₘ rest) := by
  obtain ⟨given, v, position⟩ := l
  fun_cases proceed n g v position answer with
  | case1 c entry => exact sane.join entry (calm c rfl rfl entry)
  | case2 => exact sane.create
  | case3 c =>
    cases made : g.made[c]? with
    | none => trivial
    | some flight =>
      cases done : flight.waits with
      | true => simp [done]
      | false => simpa [done, Caller.move] using sane.receive made done
  | case4 | case8 => exact sane.produce (by simp) _
  | case5 | case7 | case9 | case12 => exact sane.fail rfl _ _
  | case6 => exact sane.toQuery _
  | case10 c => exact sane.panic (alone c rfl rfl)
  | case11 c data encoded => exact sane.encode encoded
  | case13 => exact sane.delete
  | case14 => exact sane.complete
  | case15 c =>
    cases made : g.made[c]? with
    | none => trivial
    | some flight => exact sane.read made
  | case16 => trivial

/-- Every undisturbed move keeps the callers sane. -/
theorem CacheNode.takes_keeps (n : CacheNode V E) : Keeps n.takes Undisturbed (Sane n) where
  meet := by
    intro s i j a b shared sender receiver rest _ _ _ met _
    simp [takes] at met
  act := by
    intro s i choice l shared after started rest calm found whole acted sane
    obtain ⟨⟨g', v, position⟩, proceeds, ⟨⟩⟩ := map_eq_some_iff.mp acted
    have others : ∀ other ∈ rest, other ∈ s.routines := by
      intro other mem
      have present : other ∈ s.crowd := by
        rw [whole]
        exact mem_cons_of_mem mem
      exact present
    have kept := sane.step choice ?_ ?_
    · rw [proceeds] at kept
      rwa [coe_nil, zero_add]
    · rintro c rfl here other mem
      exact calm l c found here other (others other mem)
    · rintro c rfl here entry other mem
      exact calm l c found here entry other (others other mem)

theorem Sane.start (n : CacheNode V E) (values : List V) :
    Sane n (CacheNode.start values : State (FlightGroup V E) (Caller V E)).shared
      (CacheNode.start values : State (FlightGroup V E) (Caller V E)).crowd := by
  have all : ∀ l ∈ (CacheNode.start values : State (FlightGroup V E) (Caller V E)).crowd,
      l.position = .starts ∧ l.v = l.given := by
    intro l mem
    obtain ⟨v, _, rfl⟩ := mem_map.mp (mem_coe.mp mem)
    exact ⟨rfl, rfl⟩
  refine ⟨?_, ?_, ?_, ?_, ?_⟩
  · intro l mem
    simpa only [Fits, (all l mem).1] using (all l mem).2
  · intro flight mem
    simp [CacheNode.start, new] at mem
  · intro c
    refine (total_eq_zero _ fun l mem => ?_).trans rfl
    simp [(all l mem).1, leads, lead]
  · intro c entry
    simp [CacheNode.start, new] at entry
  · intro c leader mem panics
    rw [(all leader mem).1] at panics
    exact panics.elim

/-- Each step of a caller brings it nearer to its end. -/
theorem CacheNode.proceed_work (n : CacheNode V E) (g : FlightGroup V E) (v : V)
    (position : TakePosition E) (answer : Answer V E) :
    (n.proceed g v position answer).elim True fun next => next.2.2.work < position.work := by
  fun_cases proceed n g v position answer with
  | case3 c =>
    cases g.made[c]? with
    | none => trivial
    | some flight =>
      cases done : flight.waits with
      | true => simp [done]
      | false =>
        simp only [done, receive, bind_some, Bool.false_eq_true, ↓reduceIte, elim_some]
        split <;> simp [work]
  | case14 c panics => cases panics <;> simp [work]
  | case15 c => cases g.made[c]? <;> simp [work]
  | case16 => trivial
  | _ => simp [work]

theorem CacheNode.takes_work {s' : State (FlightGroup V E) (Caller V E)} {move : Move (Answer V E)}
    (moved : n.takes.next s move = some s') :
    total (fun l => l.position.work) s'.crowd < total (fun l => l.position.work) s.crowd := by
  rcases next_cases moved with
    ⟨i, choice, l, after, started, rest, rfl, found, acted, whole, replaced⟩ |
    ⟨i, j, a, b, sender, receiver, rest, rfl, _, _, together, _, _⟩
  · obtain ⟨⟨g', v, position⟩, proceeds, same⟩ := map_eq_some_iff.mp acted
    obtain ⟨_, rfl, rfl⟩ : g' = s'.shared ∧ l.move v position = after ∧ [] = started := by
      simpa using same
    have less := n.proceed_work s.shared l.v l.position choice
    rw [proceeds] at less
    rw [whole, replaced, coe_nil, zero_add, total_cons, total_cons]
    exact Nat.add_lt_add_right less _
  · simp [takes] at together

/-- A caller that neither waits nor has ended can go on. -/
theorem Fits.proceeds (fits : Fits n g l) (unfinished : l.position.ended = false)
    (notWaiting : ∀ c, l.position ≠ .waits c) :
    ∃ answer, (n.proceed g l.v l.position answer).isSome := by
  cases here : l.position with
  | starts | marshals =>
    refine ⟨.none, ?_⟩
    rw [proceed]
    split <;> rfl
  | waits c => exact absurd here (notWaiting c)
  | gets c => exact ⟨.get (.error n.errNotFound), by simp [proceed, doGetCache,
      n.isNotFound_errNotFound]⟩
  | queries c => exact ⟨.query l.v none, rfl⟩
  | deletes c panics | completes c panics => exact ⟨.none, rfl⟩
  | reads c =>
    simp only [Fits, here] at fits
    obtain ⟨flight, found, _⟩ := fits
    exact ⟨.none, by simp [proceed, found]⟩
  | returned c err | panicked own => simp [here, ended] at unfinished

theorem CacheNode.next_isSome (mem : l ∈ s.routines)
    (proceeds : (n.proceed s.shared l.v l.position answer).isSome) :
    ∃ move, (n.takes.next s move).isSome := by
  obtain ⟨i, found⟩ := mem_iff_getElem?.mp mem
  obtain ⟨next, proceeds⟩ := isSome_iff_exists.mp proceeds
  exact ⟨.act i answer, by simp [Program.next, found, takes, proceeds]⟩

/-- As long as a caller has not ended, some caller can go on. -/
theorem Sane.progress (sane : Sane n s.shared s.crowd) (mem : l ∈ s.routines)
    (unfinished : l.position.ended = false) : ∃ move, (n.takes.next s move).isSome := by
  have fits := sane.fits l mem
  by_cases waiting : ∃ c, l.position = .waits c
  · obtain ⟨c, waits⟩ := waiting
    simp only [Fits, waits] at fits
    obtain ⟨_, flight, found, _⟩ := fits
    cases done : flight.waits with
    | false =>
      have goesOn : (n.proceed s.shared l.v l.position .none).isSome := by
        simp [proceed, waits, found, done]
      exact next_isSome mem goesOn
    | true =>
      -- the call is led by a caller that does not wait
      have one : total (fun l : Caller V E => l.position.leads c) s.crowd = 1 := by
        rw [sane.leaders c, FlightGroup.leaders, found]
        simp [done]
      obtain ⟨leader, present, leads⟩ : ∃ leader ∈ s.crowd, leader.position.leads c ≠ 0 := by
        by_contra none
        push Not at none
        rw [total_eq_zero _ none] at one
        simp at one
      have lead : leader.position.lead = some c := by
        by_contra other
        exact leads (if_neg other)
      obtain ⟨answer, proceeds⟩ := (sane.fits leader present).proceeds
        (by cases position : leader.position <;> simp_all [TakePosition.lead, TakePosition.ended])
        (by intro d waits; simp [waits, TakePosition.lead] at lead)
      exact next_isSome present proceeds
  · obtain ⟨answer, proceeds⟩ := fits.proceeds unfinished fun c waits => waiting ⟨c, waits⟩
    exact next_isSome mem proceeds

/-- In a run without a query that panics under its waiters, no caller panics but by its own query,
a value that is returned without an error is that of the caller's call, and all callers end. -/
theorem take_returns (n : CacheNode V E) (values : List V) (moves : List (Move (Answer V E)))
    (met : Runs.Meets n.takes.step Undisturbed (CacheNode.start values) moves) :
    (∀ l ∈ (n.takes.after (CacheNode.start values) moves).routines,
      l.position ≠ .panicked false ∧
      ∀ c, l.position = .returned c none →
        Holds n (n.takes.after (CacheNode.start values) moves).shared c l.given l.v) ∧
    ((∃ l ∈ (n.takes.after (CacheNode.start values) moves).routines, l.position.ended = false) →
      ∃ move, (n.takes.next (n.takes.after (CacheNode.start values) moves) move).isSome) ∧
    ∀ move s', n.takes.next (n.takes.after (CacheNode.start values) moves) move = some s' →
      total (fun l => l.position.work) s'.crowd <
        total (fun l => l.position.work) (n.takes.after (CacheNode.start values) moves).crowd := by
  have sane := n.takes_keeps.run met (Sane.start n values)
  refine ⟨?_, ?_, fun move s' => takes_work⟩
  · intro l mem
    have fits := sane.fits l mem
    constructor
    · intro panicked
      simp [Fits, panicked] at fits
    · intro c returned
      simp only [Fits, returned] at fits
      exact fits trivial
  · rintro ⟨l, mem, unfinished⟩
    exact sane.progress mem unfinished

/-- Strings that are encoded as themselves. -/
def plainNode : CacheNode Str Unit where
  errNotFound := ()
  isNotFound _ := true
  isNotFound_errNotFound := rfl
  marshal v := .ok v
  unmarshal data _ := (data, none)

/-- The query of the first caller panics while nobody waits; the second one queries again. -/
def panicAlone : List (Move (Answer Str Unit)) :=
  [.act 0 .none, .act 0 (.get (.ok [])), .act 0 .panic, .act 0 .none, .act 0 .none,
    .act 1 .none, .act 1 (.get (.ok [])), .act 1 (.query [7] none), .act 1 .none, .act 1 .none,
    .act 1 .none, .act 1 .none]

theorem take_returns_again :
    ((plainNode.takes.after (CacheNode.start [[], []]) panicAlone).routines.map Caller.v)[1]? =
      some [7] ∧
    ∀ l ∈ (plainNode.takes.after (CacheNode.start [[], []]) panicAlone).routines,
      l.position ≠ .panicked false := by
  have met : Runs.Meets plainNode.takes.step Undisturbed (CacheNode.start [[], []]) panicAlone := by
    refine ⟨?_, trivial, ?_, ?_, ?_, ?_, trivial, trivial, ?_, ?_, ?_, ?_, trivial⟩
    · rintro l c found here ⟨⟩
    · intro l c found here other mem
      rcases mem_cons.mp mem with rfl | later
      · rintro ⟨⟩
      · obtain rfl := List.mem_singleton.mp later
        rintro ⟨⟩
    · rintro l c ⟨⟩ ⟨⟩
    · rintro l c ⟨⟩ ⟨⟩
    · rintro l c found here ⟨⟩
    all_goals rintro l c ⟨⟩ ⟨⟩
  refine ⟨rfl, ?_⟩
  intro l mem
  exact ((take_returns plainNode [[], []] panicAlone met).1 l mem).1

/-- The query of the first caller panics while the second one waits for it. -/
def panicShared : List (Move (Answer Str Unit)) :=
  [.act 0 .none, .act 0 (.get (.ok [])), .act 1 .none, .act 0 .panic, .act 0 .none, .act 0 .none,
    .act 1 .none]

theorem take_panics_for_another :
    (plainNode.takes.after (CacheNode.start [[], []]) panicShared).routines.map Caller.position =
      [.panicked true, .panicked false] := rfl

end FastGoZero.Stores
