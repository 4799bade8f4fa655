import Mathlib.Order.Nat
import MulticastMesh.Proofs.Outcomes
import MulticastMesh.Proofs.Tables.FirstMatch
import MulticastMesh.Tables.Preservation
/-!
# The check of compressed tables decides whether routes are kept

A pattern is only halved where an entry covers a part of it, so a half always exists and is less
general.  A pattern that is not halved any more is looked up as a whole.  The keys that are still
to be judged are those of the pattern that no earlier entry catches, and between them the halves
have all keys of the pattern.
-/

namespace MulticastMesh.Keys.Pattern

variable {p q high low : Pattern} {k : Key}

theorem getLsbD_not_bit {i j : Nat} (hi : i < 32) (hj : j < 32) :
    (~~~bit i).getLsbD j = !decide (j = i) := by
  rw [BitVec.getLsbD_not, getLsbD_bit hi]
  simp [hj]

/-- A half of a proper pattern: proper, less general, and with keys of the pattern only. -/
structure Half (p half : Pattern) : Prop where
  proper : half.Proper
  generality_lt : half.generality < p.generality
  matches_of : ∀ k, half.Matches k → p.Matches k

theorem half_of_bit {half : Pattern} {i : Nat} (hi : i < 32) (hp : p.Proper)
    (hfree : p.mask.getLsbD i = false) (hmask : half.mask = p.mask ||| bit i)
    (hkey : ∀ j < 32, j ≠ i → half.key.getLsbD j = p.key.getLsbD j) : Half p half := by
  have hbits : ∀ j < 32, half.mask.getLsbD j = (p.mask.getLsbD j || decide (j = i)) := by
    intro j hj
    rw [hmask, BitVec.getLsbD_or, getLsbD_bit hi]
  have hkept : ∀ j < 32, p.mask.getLsbD j = true → half.mask.getLsbD j = true := by
    intro j hj hpj
    rw [hbits j hj, hpj, Bool.true_or]
  refine ⟨?_, ?_, ?_⟩
  · rw [proper_iff]
    intro j hj hset
    by_cases hji : j = i
    · rw [hbits j hj, decide_eq_true hji, Bool.or_true]
    · rw [hkey j hj hji] at hset
      exact hkept j hj (proper_iff.1 hp j hj hset)
  · refine lt_of_le_of_ne (generality_le hkept) fun heq => ?_
    have hmasks := mask_eq_of_generality_le hkept heq.ge
    have hset := hbits i hi
    rw [hmasks, hfree] at hset
    simp at hset
  · intro k hk
    rw [matches_iff] at hk ⊢
    intro j hj
    have hbit := hk j hj
    by_cases hji : j = i
    · subst hji
      have hzero : p.key.getLsbD j = false := by
        cases hset : p.key.getLsbD j with
        | false => rfl
        | true =>
            have := proper_iff.1 hp j hj hset
            rw [hfree] at this
            cases this
      rw [hfree, hzero, Bool.and_false]
    · rw [hbits j hj, hkey j hj hji] at hbit
      simpa [hji] using hbit

theorem split?_eq_some (h : p.split? q = some (high, low)) : ∃ i < 32,
    p.mask.getLsbD i = false ∧ high = ⟨p.key ||| bit i, p.mask ||| bit i⟩ ∧
      low = ⟨p.key &&& ~~~bit i, p.mask ||| bit i⟩ := by
  unfold split? at h
  split at h
  · cases h
  · next i hi =>
      have hmem := List.mem_range.1 (List.mem_of_find?_eq_some hi)
      have hbit := List.find?_some hi
      rw [BitVec.getLsbD_and, BitVec.getLsbD_not] at hbit
      simp only [hmem, decide_true, Bool.true_and, Bool.and_eq_true, Bool.not_eq_true'] at hbit
      cases h
      exact ⟨i, hmem, hbit.2, rfl, rfl⟩

theorem split?_spec (hp : p.Proper) (h : p.split? q = some (high, low)) :
    Half p high ∧ Half p low := by
  obtain ⟨i, hi, hfree, rfl, rfl⟩ := split?_eq_some h
  refine ⟨half_of_bit hi hp hfree rfl ?_, half_of_bit hi hp hfree rfl ?_⟩
  · intro j hj hji
    rw [BitVec.getLsbD_or, getLsbD_bit hi]
    simp [hji]
  · intro j hj hji
    rw [BitVec.getLsbD_and, getLsbD_not_bit hi hj]
    simp [hji]

theorem split?_covers (h : p.split? q = some (high, low)) (hk : p.Matches k) :
    high.Matches k ∨ low.Matches k := by
  obtain ⟨i, hi, hfree, rfl, rfl⟩ := split?_eq_some h
  rw [matches_iff] at hk
  cases hbit : k.getLsbD i with
  | true =>
      refine .inl (matches_iff.2 fun j hj => ?_)
      rw [BitVec.getLsbD_or, BitVec.getLsbD_or, getLsbD_bit hi, ← hk j hj]
      by_cases hji : j = i
      · simp [hji, hbit]
      · simp [hji]
  | false =>
      refine .inr (matches_iff.2 fun j hj => ?_)
      rw [BitVec.getLsbD_or, BitVec.getLsbD_and, getLsbD_bit hi, getLsbD_not_bit hi hj,
        ← hk j hj]
      by_cases hji : j = i
      · simp [hji, hbit]
      · simp [hji]

theorem exists_split? (hq : q.Proper) (hintersects : p.intersects q = true)
    (hcovered : p.coveredBy q = false) : ∃ high low, p.split? q = some (high, low) := by
  unfold split?
  cases hfind : (List.range 32).find? fun i => (q.mask &&& ~~~p.mask).getLsbD i with
  | some i => exact ⟨_, _, rfl⟩
  | none =>
      have hmask : ∀ i < 32, q.mask.getLsbD i = true → p.mask.getLsbD i = true := by
        intro i hi hqi
        have hmiss := List.find?_eq_none.1 hfind i (List.mem_range.2 hi)
        rw [BitVec.getLsbD_and, BitVec.getLsbD_not] at hmiss
        simpa [hi, hqi] using hmiss
      have hcover : p.coveredBy q = true := by
        rw [coveredBy_eq_true]
        refine ⟨hmask, fun i hi => ?_⟩
        have hbits : (p.key &&& q.mask).getLsbD i = (q.key &&& p.mask).getLsbD i := by
          rw [beq_iff_eq.1 hintersects]
        rw [BitVec.getLsbD_and, BitVec.getLsbD_and] at hbits
        rw [hbits]
        cases hqk : q.key.getLsbD i with
        | false => rfl
        | true => rw [hmask i hi (proper_iff.1 hq i hi hqk), Bool.true_and]
      rw [hcover] at hcovered
      cases hcovered

end MulticastMesh.Keys.Pattern

namespace MulticastMesh.Tables

open Keys (Key Pattern)
open Mesh (Coord)
open Outcome
open Routing (Route)

/-! ## Runs of the check -/

def firstMet? (entries : List Entry) (keys : Pattern) : Option Entry :=
  entries.find? fun e => keys.intersects e.pattern

def Entry.keys (e : Entry) : Pattern := ⟨e.pattern.key &&& e.pattern.mask, e.pattern.mask⟩

/-- A finite run of the check of some keys, halving by halving, with what it reports.  The half
with the bit set is checked to its end first; what it reports ends the run. -/
inductive KeysRun (chip : Coord) (earlier compressed : List Entry) (route : Route) :
    Pattern → Except Mismatch Unit → Prop where
  | caught {keys : Pattern} {e : Entry} (hmet : firstMet? earlier keys = some e)
      (hcovered : keys.coveredBy e.pattern = true) :
      KeysRun chip earlier compressed route keys (.ok ())
  | lost {keys : Pattern} (hmissed : firstMet? earlier keys = none)
      (hlost : firstMet? compressed keys = none) :
      KeysRun chip earlier compressed route keys (.error (.keysLost chip keys))
  | kept {keys : Pattern} {f : Entry} (hmissed : firstMet? earlier keys = none)
      (hmet : firstMet? compressed keys = some f) (hcovered : keys.coveredBy f.pattern = true)
      (hroute : f.route = route) : KeysRun chip earlier compressed route keys (.ok ())
  | changed {keys : Pattern} {f : Entry} (hmissed : firstMet? earlier keys = none)
      (hmet : firstMet? compressed keys = some f) (hcovered : keys.coveredBy f.pattern = true)
      (hroute : f.route ≠ route) :
      KeysRun chip earlier compressed route keys (.error (.routeChanged chip keys route f.route))
  | halved {keys high low : Pattern} {f : Entry} {result : Except Mismatch Unit}
      (hmet : firstMet? (earlier ++ compressed) keys = some f)
      (hpart : keys.coveredBy f.pattern = false)
      (hsplit : keys.split? f.pattern = some (high, low))
      (hhigh : KeysRun chip earlier compressed route high (.ok ()))
      (hlow : KeysRun chip earlier compressed route low result) :
      KeysRun chip earlier compressed route keys result
  | aborted {keys high low : Pattern} {f : Entry} {m : Mismatch}
      (hmet : firstMet? (earlier ++ compressed) keys = some f)
      (hpart : keys.coveredBy f.pattern = false)
      (hsplit : keys.split? f.pattern = some (high, low))
      (hhigh : KeysRun chip earlier compressed route high (.error m)) :
      KeysRun chip earlier compressed route keys (.error m)
  | stuck {keys : Pattern} {f : Entry}
      (hmet : firstMet? (earlier ++ compressed) keys = some f)
      (hpart : keys.coveredBy f.pattern = false) (hsplit : keys.split? f.pattern = none) :
      KeysRun chip earlier compressed route keys (.error (.unsplittable keys f))

/-- A finite run of the check of some entries behind earlier ones. -/
inductive EntriesRun (chip : Coord) (compressed : List Entry) :
    List Entry → List Entry → Except Mismatch Unit → Prop where
  | done {earlier : List Entry} : EntriesRun chip compressed earlier [] (.ok ())
  | passed {earlier rest : List Entry} {e : Entry} {result : Except Mismatch Unit}
      (hkeys : KeysRun chip earlier compressed e.route e.keys (.ok ()))
      (hrest : EntriesRun chip compressed (earlier ++ [e]) rest result) :
      EntriesRun chip compressed earlier (e :: rest) result
  | failed {earlier rest : List Entry} {e : Entry} {m : Mismatch}
      (hkeys : KeysRun chip earlier compressed e.route e.keys (.error m)) :
      EntriesRun chip compressed earlier (e :: rest) (.error m)

variable {chip : Coord} {earlier rest compressed before after : List Entry} {route : Route}
  {e f : Entry} {keys high low : Pattern} {k : Key} {result : Except Mismatch Unit}
  {m : Mismatch} {fuel : Nat}

theorem firstMet?_append : firstMet? (before ++ after) keys =
    (firstMet? before keys).or (firstMet? after keys) :=
  List.find?_append

theorem intersects_of_firstMet? (h : firstMet? before keys = some e) :
    keys.intersects e.pattern = true := by
  simpa using List.find?_some h

theorem checkKeys_succ : checkKeys chip earlier compressed route (fuel + 1) keys =
    match firstMet? earlier keys with
    | some e =>
      if keys.coveredBy e.pattern then .ok ()
      else checkHalves keys e (checkKeys chip earlier compressed route fuel)
    | none =>
      match firstMet? compressed keys with
      | none => .error (.keysLost chip keys)
      | some e =>
        if keys.coveredBy e.pattern then
          if e.route = route then .ok ()
          else .error (.routeChanged chip keys route e.route)
        else checkHalves keys e (checkKeys chip earlier compressed route fuel) :=
  rfl

theorem checkKeys_part (hmet : firstMet? (earlier ++ compressed) keys = some f)
    (hpart : keys.coveredBy f.pattern = false) :
    checkKeys chip earlier compressed route (fuel + 1) keys =
      checkHalves keys f (checkKeys chip earlier compressed route fuel) := by
  rw [checkKeys_succ]
  rw [firstMet?_append] at hmet
  cases hearlier : firstMet? earlier keys with
  | some e =>
      rw [hearlier, Option.some_or, Option.some.injEq] at hmet
      subst hmet
      simp only [hpart, Bool.false_eq_true, if_false]
  | none =>
      rw [hearlier, Option.none_or] at hmet
      simp only [hmet, hpart, Bool.false_eq_true, if_false]

theorem Entry.proper_keys : e.keys.Proper := by
  rw [Pattern.proper_iff]
  intro i _ hset
  rw [Entry.keys, BitVec.getLsbD_and, Bool.and_eq_true] at hset
  exact hset.2

theorem Entry.keys_eq (h : e.pattern.Proper) : e.keys = e.pattern := by
  have hkey : e.pattern.key &&& e.pattern.mask = e.pattern.key := h.matches_key
  rw [Entry.keys, hkey]

theorem keysRun_halves (hmet : firstMet? (earlier ++ compressed) keys = some f)
    (hpart : keys.coveredBy f.pattern = false) {check : Pattern → Except Mismatch Unit}
    (hproper : keys.Proper) (hhalf : ∀ half, Pattern.Half keys half →
      KeysRun chip earlier compressed route half (check half)) :
    KeysRun chip earlier compressed route keys (checkHalves keys f check) := by
  unfold checkHalves
  split
  · next hsplit => exact .stuck hmet hpart hsplit
  · next high low hsplit =>
      obtain ⟨hhigh, hlow⟩ := Pattern.split?_spec hproper hsplit
      have hrun := hhalf high hhigh
      cases hcheck : check high with
      | ok u =>
          rw [hcheck] at hrun
          exact .halved hmet hpart hsplit hrun (hhalf low hlow)
      | error m =>
          rw [hcheck] at hrun
          exact .aborted hmet hpart hsplit hrun

/-- Every check ends: a half fixes one bit more than the keys it comes from, so their free bits
bound the halvings. -/
theorem keysRun_checkKeys (hproper : keys.Proper) (hfuel : keys.generality < fuel) :
    KeysRun chip earlier compressed route keys
      (checkKeys chip earlier compressed route fuel keys) := by
  induction fuel generalizing keys with
  | zero => cases hfuel
  | succ fuel ih =>
      have hhalf : ∀ half, Pattern.Half keys half → KeysRun chip earlier compressed route half
          (checkKeys chip earlier compressed route fuel half) := by
        intro half hhalf
        have := hhalf.generality_lt
        exact ih hhalf.proper (by omega)
      rw [checkKeys_succ]
      cases hearlier : firstMet? earlier keys with
      | some e =>
          cases hcovered : keys.coveredBy e.pattern with
          | true =>
              simp only [hcovered, if_true]
              exact .caught hearlier hcovered
          | false =>
              have hmet : firstMet? (earlier ++ compressed) keys = some e := by
                rw [firstMet?_append, hearlier, Option.some_or]
              simp only [hcovered, Bool.false_eq_true, if_false]
              exact keysRun_halves hmet hcovered hproper hhalf
      | none =>
          cases hfound : firstMet? compressed keys with
          | none => exact .lost hearlier hfound
          | some f =>
              cases hcovered : keys.coveredBy f.pattern with
              | true =>
                  simp only [hcovered, if_true]
                  split
                  · next hroute => exact .kept hearlier hfound hcovered hroute
                  · next hroute => exact .changed hearlier hfound hcovered hroute
              | false =>
                  have hmet : firstMet? (earlier ++ compressed) keys = some f := by
                    rw [firstMet?_append, hearlier, Option.none_or, hfound]
                  simp only [hcovered, Bool.false_eq_true, if_false]
                  exact keysRun_halves hmet hcovered hproper hhalf

/-- A run reports what the check does, however much fuel that has beyond the free bits. -/
theorem KeysRun.checkKeys_eq (h : KeysRun chip earlier compressed route keys result)
    (hproper : keys.Proper) (hfuel : keys.generality ≤ fuel) :
    checkKeys chip earlier compressed route (fuel + 1) keys = result := by
  induction h generalizing fuel with
  | caught hmet hcovered =>
      rw [checkKeys_succ]
      simp only [hmet, hcovered, if_true]
  | lost hmissed hlost => rw [checkKeys_succ, hmissed, hlost]
  | kept hmissed hmet hcovered hroute =>
      rw [checkKeys_succ]
      simp only [hmissed, hmet, hcovered, hroute, if_true]
  | changed hmissed hmet hcovered hroute =>
      rw [checkKeys_succ]
      simp only [hmissed, hmet, hcovered, hroute, if_true, if_false]
  | halved hmet hpart hsplit _ _ ihhigh ihlow =>
      obtain ⟨hhigh, hlow⟩ := Pattern.split?_spec hproper hsplit
      have hlt := hhigh.generality_lt
      have hlt' := hlow.generality_lt
      obtain ⟨fuel, rfl⟩ : ∃ n, fuel = n + 1 := ⟨fuel - 1, by omega⟩
      have hcheck := ihhigh hhigh.proper (show _ ≤ fuel by omega)
      have hcheck' := ihlow hlow.proper (show _ ≤ fuel by omega)
      rw [checkKeys_part hmet hpart, checkHalves, hsplit]
      simp only [hcheck, hcheck']
      rfl
  | aborted hmet hpart hsplit _ ihhigh =>
      obtain ⟨hhigh, _⟩ := Pattern.split?_spec hproper hsplit
      have hlt := hhigh.generality_lt
      obtain ⟨fuel, rfl⟩ : ∃ n, fuel = n + 1 := ⟨fuel - 1, by omega⟩
      have hcheck := ihhigh hhigh.proper (show _ ≤ fuel by omega)
      rw [checkKeys_part hmet hpart, checkHalves, hsplit]
      simp only [hcheck]
      rfl
  | stuck hmet hpart hsplit => rw [checkKeys_part hmet hpart, checkHalves, hsplit]

theorem checkEntries_cons : checkEntries chip compressed earlier (e :: rest) =
    (checkKeys chip earlier compressed e.route (e.keys.generality + 1) e.keys >>= fun _ =>
      checkEntries chip compressed (earlier ++ [e]) rest) :=
  rfl

theorem entriesRun_iff : EntriesRun chip compressed earlier rest result ↔
    checkEntries chip compressed earlier rest = result := by
  constructor
  · intro h
    induction h with
    | done => rfl
    | passed hkeys _ ih =>
        rw [checkEntries_cons, hkeys.checkKeys_eq Entry.proper_keys le_rfl]
        exact ih
    | failed hkeys =>
        rw [checkEntries_cons, hkeys.checkKeys_eq Entry.proper_keys le_rfl]
        rfl
  · rintro rfl
    induction rest generalizing earlier with
    | nil => exact .done
    | cons e rest ih =>
        have hrun : KeysRun chip earlier compressed e.route e.keys _ :=
          keysRun_checkKeys Entry.proper_keys (Nat.lt_succ_self _)
        rw [checkEntries_cons]
        cases hcheck : checkKeys chip earlier compressed e.route (e.keys.generality + 1) e.keys with
        | ok u =>
            rw [hcheck] at hrun
            exact .passed hrun ih
        | error m =>
            rw [hcheck] at hrun
            exact .failed hrun

/-! ## What a run reports -/

structure KeysOf (e : Entry) (keys : Pattern) : Prop where
  proper : keys.Proper
  matches_of : ∀ k, keys.Matches k → e.Matches k

theorem KeysOf.half {half : Pattern} (h : KeysOf e keys) (hhalf : Pattern.Half keys half) :
    KeysOf e half :=
  ⟨hhalf.proper, fun k hk => h.matches_of k (hhalf.matches_of k hk)⟩

/-- What a mismatch says of the entries of a chip and of those that stand for them: all of some
keys, of which there are any, are lost or have another route. -/
def Mismatch.Describes (chip : Coord) (before after : List Entry) : Mismatch → Prop
  | .keysLost c keys => c = chip ∧ keys.Proper ∧
      ∃ e, ∀ k, keys.Matches k → lookup? before k = some e ∧ lookup? after k = none
  | .routeChanged c keys expected found => c = chip ∧ keys.Proper ∧ found ≠ expected ∧
      ∃ e f, e.route = expected ∧ f.route = found ∧
        ∀ k, keys.Matches k → lookup? before k = some e ∧ lookup? after k = some f
  | .missingTable _ => False
  | .unsplittable _ _ => False

theorem Mismatch.Describes.not_keepsRoutes (h : m.Describes chip before after) :
    ¬ KeepsRoutes before after := by
  intro hkeeps
  -- the key of a proper pattern is one of its keys
  cases m with
  | keysLost c keys =>
      obtain ⟨_, hproper, e, hkeys⟩ := h
      obtain ⟨he, hlost⟩ := hkeys keys.key hproper.matches_key
      obtain ⟨f, hf, _⟩ := hkeeps keys.key e he
      rw [hlost] at hf
      cases hf
  | routeChanged c keys expected found =>
      obtain ⟨_, hproper, hne, e, f, rfl, rfl, hkeys⟩ := h
      obtain ⟨he, hf⟩ := hkeys keys.key hproper.matches_key
      obtain ⟨f', hf', hroute⟩ := hkeeps keys.key e he
      rw [hf, Option.some.injEq] at hf'
      subst hf'
      exact hne hroute
  | missingTable c => exact h
  | unsplittable keys e => exact h

def ReportsKeys (chip : Coord) (earlier compressed : List Entry) (e : Entry) (rest : List Entry)
    (keys : Pattern) : Except Mismatch Unit → Prop
  | .ok _ => ∀ k, keys.Matches k → lookup? earlier k = none →
      ∃ f, lookup? compressed k = some f ∧ f.route = e.route
  | .error m => m.Describes chip (earlier ++ e :: rest) compressed

def ReportsEntries (chip : Coord) (compressed earlier rest : List Entry) :
    Except Mismatch Unit → Prop
  | .ok _ => ∀ k d, lookup? earlier k = none → lookup? rest k = some d →
      ∃ f, lookup? compressed k = some f ∧ f.route = d.route
  | .error m => m.Describes chip (earlier ++ rest) compressed

theorem lookup?_of_firstMet?_eq_none (h : firstMet? before keys = none) (hk : keys.Matches k) :
    lookup? before k = none := by
  rw [lookup?_eq_none_iff]
  intro d hd hdk
  exact List.find?_eq_none.1 h d hd (Pattern.intersects_of_matches hk hdk)

theorem lookup?_of_firstMet? (h : firstMet? before keys = some f)
    (hcovered : keys.coveredBy f.pattern = true) (hk : keys.Matches k) :
    lookup? before k = some f := by
  obtain ⟨_, first, others, rfl, hfirst⟩ := List.find?_eq_some_iff_append.1 h
  have hnone : lookup? first k = none := by
    refine lookup?_of_firstMet?_eq_none ?_ hk
    rw [firstMet?, List.find?_eq_none]
    intro d hd
    simpa using hfirst d hd
  have hfk : f.Matches k := Pattern.Matches.of_coveredBy hcovered hk
  rw [lookup?_append, hnone, Option.none_or, lookup?_cons, if_pos hfk]

theorem lookup?_behind (hmissed : lookup? earlier k = none) (hk : e.Matches k) :
    lookup? (earlier ++ e :: rest) k = some e := by
  rw [lookup?_append, hmissed, Option.none_or, lookup?_cons, if_pos hk]

theorem KeysRun.reports (h : KeysRun chip earlier compressed e.route keys result)
    (hkeys : KeysOf e keys) (hproper : AllProper (earlier ++ compressed)) :
    ReportsKeys chip earlier compressed e rest keys result := by
  induction h with
  | caught hmet hcovered =>
      intro k hk hmissed
      rw [lookup?_of_firstMet? hmet hcovered hk] at hmissed
      cases hmissed
  | lost hmissed hlost =>
      refine ⟨rfl, hkeys.proper, e, fun k hk => ⟨?_, lookup?_of_firstMet?_eq_none hlost hk⟩⟩
      exact lookup?_behind (lookup?_of_firstMet?_eq_none hmissed hk) (hkeys.matches_of k hk)
  | kept hmissed hmet hcovered hroute =>
      intro k hk _
      exact ⟨_, lookup?_of_firstMet? hmet hcovered hk, hroute⟩
  | changed hmissed hmet hcovered hroute =>
      refine ⟨rfl, hkeys.proper, hroute, e, _, rfl, rfl, fun k hk => ⟨?_, ?_⟩⟩
      · exact lookup?_behind (lookup?_of_firstMet?_eq_none hmissed hk) (hkeys.matches_of k hk)
      · exact lookup?_of_firstMet? hmet hcovered hk
  | @halved keys high low f result hmet hpart hsplit _ _ ihhigh ihlow =>
      obtain ⟨hhigh, hlow⟩ := Pattern.split?_spec hkeys.proper hsplit
      have hlower := ihlow (hkeys.half hlow)
      cases result with
      | error m => exact hlower
      | ok u =>
          intro k hk hmissed
          rcases Pattern.split?_covers hsplit hk with hk | hk
          · exact ihhigh (hkeys.half hhigh) k hk hmissed
          · exact hlower k hk hmissed
  | aborted hmet hpart hsplit _ ihhigh =>
      exact ihhigh (hkeys.half (Pattern.split?_spec hkeys.proper hsplit).1)
  | stuck hmet hpart hsplit =>
      -- an entry that has a part of the keys fixes a bit that they leave free
      obtain ⟨high, low, hhalves⟩ := Pattern.exists_split?
        (hproper _ (List.mem_of_find?_eq_some hmet)) (intersects_of_firstMet? hmet) hpart
      rw [hsplit] at hhalves
      cases hhalves

theorem EntriesRun.reports (h : EntriesRun chip compressed earlier rest result)
    (hproper : AllProper (earlier ++ rest)) (hproper' : AllProper compressed) :
    ReportsEntries chip compressed earlier rest result := by
  have hkeysOf : ∀ (earlier rest : List Entry) (e : Entry), AllProper (earlier ++ e :: rest) →
      KeysOf e e.keys ∧ AllProper (earlier ++ compressed) := by
    intro earlier rest e hproper
    have he := hproper e (by simp)
    rw [Entry.keys_eq he]
    refine ⟨⟨he, fun _ hk => hk⟩, fun d hd => ?_⟩
    rcases List.mem_append.1 hd with hd | hd
    · exact hproper d (by simp [hd])
    · exact hproper' d hd
  induction h with
  | done =>
      intro k d _ hd
      cases hd
  | @passed earlier rest e result hkeys _ ih =>
      obtain ⟨hof, hall⟩ := hkeysOf earlier rest e hproper
      have hfirst : ReportsKeys chip earlier compressed e rest e.keys (.ok ()) :=
        hkeys.reports hof hall
      rw [List.append_cons] at hproper
      have hrest := ih hproper
      cases result with
      | error m =>
          show m.Describes chip (earlier ++ e :: rest) compressed
          rw [List.append_cons]
          exact hrest
      | ok u =>
          intro k d hmissed hd
          rw [lookup?_cons] at hd
          split at hd
          · next hk =>
              cases hd
              have hk : e.keys.Matches k := by
                rw [Entry.keys_eq (hproper e (by simp))]
                exact hk
              exact hfirst k hk hmissed
          · next hk =>
              refine hrest k d ?_ hd
              rw [lookup?_append, hmissed, Option.none_or, lookup?_cons, if_neg hk]
              rfl
  | @failed earlier rest e m hkeys =>
      obtain ⟨hof, hall⟩ := hkeysOf earlier rest e hproper
      exact hkeys.reports hof hall

/-! ## What the check of a table decides -/

theorem checkTable_reports {uncompressed compressed : Table}
    (hproper : AllProper uncompressed.entries) (hproper' : AllProper compressed.entries) :
    ReportsEntries uncompressed.chip compressed.entries [] uncompressed.entries
      (checkTable uncompressed compressed) :=
  (entriesRun_iff.2 rfl).reports hproper hproper'

/-- A table that keeps the routes of another one passes the check. -/
theorem checkTable_ok {uncompressed compressed : Table}
    (hkeeps : KeepsRoutes uncompressed.entries compressed.entries)
    (hproper : AllProper uncompressed.entries) (hproper' : AllProper compressed.entries) :
    checkTable uncompressed compressed = .ok () := by
  have hreports := checkTable_reports hproper hproper'
  cases hcheck : checkTable uncompressed compressed with
  | ok u => rfl
  | error m =>
      rw [hcheck] at hreports
      exact absurd hkeeps (Mismatch.Describes.not_keepsRoutes hreports)

/-- The check of a table has one finite run, passes exactly the tables that keep every route and
is right about the keys that it reports. -/
structure DecidesRoutes (uncompressed compressed : Table) : Prop where
  run : ∀ result, EntriesRun uncompressed.chip compressed.entries [] uncompressed.entries result ↔
    checkTable uncompressed compressed = result
  passes : checkTable uncompressed compressed = .ok () ↔
    KeepsRoutes uncompressed.entries compressed.entries
  describes : ∀ m, checkTable uncompressed compressed = .error m →
    m.Describes uncompressed.chip uncompressed.entries compressed.entries

/-- For tables without key bits outside their masks the check of compression decides whether
every route is kept. -/
theorem checkTable_decides {uncompressed compressed : Table}
    (hproper : AllProper uncompressed.entries) (hproper' : AllProper compressed.entries) :
    DecidesRoutes uncompressed compressed where
  run := fun _ => entriesRun_iff
  passes := by
    refine ⟨fun hok k e he => ?_, fun hkeeps => checkTable_ok hkeeps hproper hproper'⟩
    have hreports := checkTable_reports hproper hproper'
    rw [hok] at hreports
    exact hreports k e rfl he
  describes := by
    intro m herror
    have hreports := checkTable_reports hproper hproper'
    rw [herror] at hreports
    exact hreports

/-- A narrow entry before a wide one that has its keys too. -/
def narrowFirst : Table := ⟨⟨0, 0⟩,
  [⟨⟨2, ~~~1⟩, .overLinks [.north], false⟩, ⟨⟨0, ~~~7⟩, .overLinks [.east], false⟩]⟩

/-- The wide entry cut short behind the narrow one: half of what is left of it is lost. -/
def cutShort : Table := ⟨⟨0, 0⟩,
  [⟨⟨2, ~~~1⟩, .overLinks [.north], false⟩, ⟨⟨0, ~~~3⟩, .overLinks [.east], false⟩]⟩

theorem checkTable_decides_cutShort : DecidesRoutes narrowFirst cutShort ∧
    checkTable narrowFirst cutShort = .error (.keysLost ⟨0, 0⟩ ⟨6, ~~~1⟩) := by
  have hproper : AllProper narrowFirst.entries := by
    unfold AllProper
    decide
  have hproper' : AllProper cutShort.entries := by
    unfold AllProper
    decide
  exact ⟨checkTable_decides hproper hproper', by decide +kernel⟩

end MulticastMesh.Tables
