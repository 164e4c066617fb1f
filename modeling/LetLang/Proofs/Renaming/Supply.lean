import LetLang.Proofs.Interning
import LetLang.Proofs.Renaming.Fresh

/-!
# The supply of fresh tokens

A renamer is asked for fresh tokens of any tokens, fresh ones included, while a scanner takes tokens
from the same supply. Names never come again, but sites of 32 bits do.
-/

namespace LetLang

namespace Renamer

inductive Request where
  | token (kind : TokenKind) (lexeme : String) (literal : Option Value) (offset : UInt32)
  | fresh (t : Token)

def Request.isFresh : Request → Bool
  | token .. => false
  | fresh _ => true

def perform (r : Renamer) : Request → Except Fault Token × Renamer
  | .token kind lexeme literal offset =>
    let (outcome, symbols) := r.symbols.token kind lexeme literal offset
    (outcome, { r with symbols })
  | .fresh t => r.fresh t

abbrev Log := List (Request × Except Fault Token)

def performAll (r : Renamer) : List Request → Log × Renamer
  | [] => ([], r)
  | request :: requests =>
    let (outcome, after) := r.perform request
    let (log, last) := after.performAll requests
    ((request, outcome) :: log, last)

namespace Log

def tokens (log : Log) : List Token := log.filterMap fun entry => entry.2.toOption

def pair? : Request × Except Fault Token → Option (Token × Token)
  | (.fresh t, .ok f) => some (t, f)
  | _ => none

def pairs (log : Log) : List (Token × Token) := log.filterMap pair?

end Log

variable {r : Renamer}

theorem tokens_cons_ok (request : Request) (t : Token) (log : Log) :
    Log.tokens ((request, .ok t) :: log) = t :: log.tokens := rfl

theorem performAll_cons (r : Renamer) (request : Request) (requests : List Request) :
    r.performAll (request :: requests) =
      ((request, (r.perform request).1) :: ((r.perform request).2.performAll requests).1,
        ((r.perform request).2.performAll requests).2) := rfl

theorem token_cases (symbols : Symbols) (kind : TokenKind) (lexeme : String)
    (literal : Option Value) (offset : UInt32) :
    (∃ n, (symbols.names.intern lexeme).1 = .ok n ∧
      symbols.token kind lexeme literal offset =
        (.ok ⟨kind, lexeme, literal, offset, symbols.nextSite⟩,
          ⟨(symbols.names.intern lexeme).2, symbols.nextSite + 1⟩)) ∨
    ∃ f, (symbols.names.intern lexeme).1 = .error f ∧
      symbols.token kind lexeme literal offset =
        (.error f, { symbols with names := (symbols.names.intern lexeme).2 }) := by
  rcases called : symbols.names.intern lexeme with ⟨answer, names⟩
  cases answer with
  | ok n => exact .inl ⟨n, rfl, by rw [Symbols.token, called]⟩
  | error f => exact .inr ⟨f, rfl, by rw [Symbols.token, called]⟩

/-- The tokens of a log: fresh names have the numbers from those of `r` up to those of `after`, and
sites are given out in order. -/
structure Draws (r : Renamer) (log : Log) (after : Renamer) : Prop where
  counted : r.issued.toNat ≤ after.issued.toNat
  numbered : ∀ pair ∈ log.pairs, ∃ n, r.issued.toNat ≤ n ∧ n < after.issued.toNat ∧
    pair.2.lexeme = freshLexeme pair.1.lexeme n
  lexemes : (log.pairs.map fun pair => pair.2.lexeme).Nodup
  nextSite : after.symbols.nextSite = r.symbols.nextSite + .ofNat log.tokens.length
  sites : log.tokens.map Token.site =
    (List.range log.tokens.length).map fun n => r.symbols.nextSite + .ofNat n

theorem Draws.nothing {request : Request} {f : Fault} {after : Renamer}
    (counted : r.issued.toNat ≤ after.issued.toNat)
    (kept : after.symbols.nextSite = r.symbols.nextSite) :
    r.Draws [(request, .error f)] after where
  counted := counted
  numbered := by cases request <;> exact List.forall_mem_nil _
  lexemes := by cases request <;> exact List.nodup_nil
  nextSite := kept.trans (UInt32.add_zero _).symm
  sites := rfl

theorem draws_perform (r : Renamer) (request : Request) :
    r.Draws [(request, (r.perform request).1)] (r.perform request).2 := by
  cases request with
  | token kind lexeme literal offset =>
    rw [perform]
    rcases token_cases r.symbols kind lexeme literal offset with ⟨n, _, given⟩ | ⟨f, _, refused⟩
    · rw [given]
      exact {
        counted := Nat.le_refl _
        numbered := List.forall_mem_nil _
        lexemes := List.nodup_nil
        nextSite := rfl
        sites := congrArg ([·]) (UInt32.add_zero _).symm }
    · rw [refused]
      exact .nothing (Nat.le_refl _) rfl
  | fresh t =>
    rw [perform]
    rcases r.fresh_cases t with ⟨ready, given⟩ | ⟨_, f, issued, refused, counted, _⟩
    · have above : r.issued.toNat < (r.next t).issued.toNat :=
        Nat.lt_of_lt_of_eq (Nat.lt_succ_self _) (toNat_issued_succ ready.counter).symm
      rw [given]
      exact {
        counted := Nat.le_of_lt above
        numbered := List.forall_mem_singleton.mpr ⟨r.issued.toNat, Nat.le_refl _, above, rfl⟩
        lexemes := List.pairwise_singleton _ _
        nextSite := rfl
        sites := rfl }
    · rw [refused]
      exact .nothing counted rfl

/-- Numbers go up, so those of the second log are none of the first one. -/
theorem Draws.trans {middle after : Renamer} {log more : Log} (first : r.Draws log middle)
    (next : middle.Draws more after) : r.Draws (log ++ more) after := by
  have pairs : Log.pairs (log ++ more) = log.pairs ++ more.pairs := List.filterMap_append
  have tokens : Log.tokens (log ++ more) = log.tokens ++ more.tokens := List.filterMap_append
  have counted := first.counted
  have counted' := next.counted
  refine ⟨Nat.le_trans counted counted', ?_, ?_, ?_, ?_⟩
  · rw [pairs]
    refine List.forall_mem_append.mpr ⟨fun pair member => ?_, fun pair member => ?_⟩
    · obtain ⟨n, above, below, lexeme⟩ := first.numbered pair member
      exact ⟨n, above, by omega, lexeme⟩
    · obtain ⟨n, above, below, lexeme⟩ := next.numbered pair member
      exact ⟨n, by omega, below, lexeme⟩
  · rw [pairs, List.map_append]
    refine List.nodup_append.mpr ⟨first.lexemes, next.lexemes, ?_⟩
    intro a early b late same
    obtain ⟨p, here, rfl⟩ := List.mem_map.mp early
    obtain ⟨q, there, rfl⟩ := List.mem_map.mp late
    obtain ⟨m, _, below, lexeme⟩ := first.numbered p here
    obtain ⟨n, above, _, lexeme'⟩ := next.numbered q there
    have numbers : m = n := (freshLexeme_inj.mp (lexeme.symm.trans (same.trans lexeme'))).2
    omega
  · rw [next.nextSite, first.nextSite, tokens, List.length_append, UInt32.ofNat_add,
      UInt32.add_assoc]
  · rw [tokens, List.map_append, first.sites, next.sites, first.nextSite, List.length_append,
      List.range_add, List.map_append, List.map_map]
    refine congrArg (_ ++ ·) (List.map_congr_left fun n _ => ?_)
    rw [Function.comp, UInt32.ofNat_add, UInt32.add_assoc]

theorem draws_performAll (r : Renamer) (requests : List Request) :
    r.Draws (r.performAll requests).1 (r.performAll requests).2 := by
  induction requests generalizing r with
  | nil =>
    exact ⟨Nat.le_refl _, List.forall_mem_nil _, List.nodup_nil, (UInt32.add_zero _).symm, rfl⟩
  | cons request requests ih =>
    rw [performAll_cons]
    exact (r.draws_perform request).trans (ih _)

theorem perform_granted (r : Renamer) (request : Request)
    (counter : r.issued.toNat + (if request.isFresh then 1 else 0) < UInt32.size)
    (room : r.symbols.names.size < UInt32.size) :
    (∃ t, (r.perform request).1 = .ok t) ∧
      (r.perform request).2.issued.toNat =
        r.issued.toNat + (if request.isFresh then 1 else 0) ∧
      (r.perform request).2.symbols.names.size ≤ r.symbols.names.size + 1 := by
  cases request with
  | token kind lexeme literal offset =>
    have size := r.symbols.names.size_intern_le lexeme
    rw [perform]
    rcases token_cases r.symbols kind lexeme literal offset with ⟨_, _, given⟩ | ⟨f, failed, _⟩
    · rw [given]
      exact ⟨⟨_, rfl⟩, rfl, size⟩
    · obtain ⟨n, interned⟩ := Interner.intern_ok lexeme room
      cases failed.symm.trans interned
  | fresh t =>
    have ready : r.Ready t := ⟨counter, .inr room⟩
    rw [perform, fresh_of_ready ready]
    exact ⟨⟨_, rfl⟩, toNat_issued_succ counter, Interner.size_intern_le _ _⟩

theorem performAll_granted {requests : List Request}
    (counter : r.issued.toNat + requests.countP Request.isFresh < UInt32.size)
    (room : r.symbols.names.size + requests.length ≤ UInt32.size) :
    ∀ entry ∈ (r.performAll requests).1, ∃ t, entry.2 = .ok t := by
  induction requests generalizing r with
  | nil => exact List.forall_mem_nil _
  | cons request requests ih =>
    rw [List.countP_cons] at counter
    rw [List.length_cons] at room
    obtain ⟨granted, issued, names⟩ := r.perform_granted request (by omega) (by omega)
    have counter' : (r.perform request).2.issued.toNat + requests.countP Request.isFresh <
        UInt32.size := by omega
    rw [performAll_cons]
    exact List.forall_mem_cons.mpr ⟨granted, ih counter' (by omega)⟩

theorem map_fst_performAll (r : Renamer) (requests : List Request) :
    (r.performAll requests).1.map Prod.fst = requests := by
  induction requests generalizing r with
  | nil => rfl
  | cons request requests ih => exact congrArg (request :: ·) (ih (r.perform request).2)

/-- The log of the given requests, from `r` up to `after`. -/
structure Supplies (r : Renamer) (requests : List Request) (log : Log) (after : Renamer) : Prop where
  answered : log.map Prod.fst = requests
  /-- The counter and the numbers of names have 32 bits. -/
  granted : r.issued.toNat + requests.countP Request.isFresh < UInt32.size →
    r.symbols.names.size + requests.length ≤ UInt32.size → ∀ entry ∈ log, ∃ t, entry.2 = .ok t
  lexemes : (log.pairs.map fun pair => pair.2.lexeme).Nodup
  marked : ∀ pair ∈ log.pairs, ∀ name, Plain name → pair.2.lexeme ≠ name
  derived : ∀ pair ∈ log.pairs, original pair.2.lexeme = pair.1.lexeme
  /-- A site comes again with every `2 ^ 32`th token, and with no other one. -/
  recurs : ∀ (m n : Nat) (early late : Token), log.tokens[m]? = some early →
    log.tokens[n]? = some late → (early.site = late.site ↔ m % UInt32.size = n % UInt32.size)
  sites : log.tokens.length ≤ UInt32.size → (log.tokens.map Token.site).Nodup
  /-- This is about tokens from before `r`, none of whose sites comes again so soon. -/
  spared : ∀ earlier, r.symbols.Spares log.tokens.length earlier →
    ∀ t ∈ log.tokens, ∀ e ∈ earlier, t.site ≠ e.site

/-- Whatever a renamer is asked for, the fresh names are different from each other and from all names
without a mark, and the last mark ends the name that they were derived from. Up to `2 ^ 32` tokens
in a row have different sites, and then the sites start again. -/
theorem fresh_names_apart (r : Renamer) (requests : List Request) :
    r.Supplies requests (r.performAll requests).1 (r.performAll requests).2 := by
  have draws := r.draws_performAll requests
  have site : ∀ (n : Nat) (t : Token), (r.performAll requests).1.tokens[n]? = some t →
      n < (r.performAll requests).1.tokens.length ∧ t.site = r.symbols.nextSite + .ofNat n := by
    intro n t there
    have below := (List.getElem?_eq_some_iff.mp there).1
    have placed := congrArg (·[n]?) draws.sites
    simp only [List.getElem?_map, there, List.getElem?_range below] at placed
    exact ⟨below, Option.some.inj placed⟩
  have recurs : ∀ (m n : Nat) (early late : Token), (r.performAll requests).1.tokens[m]? = some early →
      (r.performAll requests).1.tokens[n]? = some late →
        (early.site = late.site ↔ m % UInt32.size = n % UInt32.size) := by
    intro m n early late here there
    rw [(site m early here).2, (site n late there).2, site_eq_iff]
  exact {
    answered := map_fst_performAll r requests
    granted := fun counter room => performAll_granted counter room
    lexemes := draws.lexemes
    marked := fun pair member name plain same => by
      obtain ⟨n, _, _, lexeme⟩ := draws.numbered pair member
      exact not_plain_freshLexeme _ n (lexeme ▸ same ▸ plain)
    derived := fun pair member => by
      obtain ⟨n, _, _, lexeme⟩ := draws.numbered pair member
      rw [lexeme, original_freshLexeme]
    recurs := recurs
    sites := fun few => by
      refine List.pairwise_map.mpr (List.pairwise_iff_getElem.mpr fun i j first last less same => ?_)
      have rests := (recurs i j _ _ (List.getElem?_eq_getElem first)
        (List.getElem?_eq_getElem last)).mp same
      rw [Nat.mod_eq_of_lt (by omega), Nat.mod_eq_of_lt (by omega)] at rests
      omega
    spared := fun earlier spares t member e old same => by
      obtain ⟨n, there⟩ := List.mem_iff_getElem?.mp member
      obtain ⟨below, placed⟩ := site n t there
      exact spares e old n below (placed.symm.trans same) }

/-- Fresh tokens of a name with a mark, of the empty name, of a scanned token and of a fresh one. -/
theorem fresh_names_apart_marked :
    let marked : Token := ⟨.identifier, "a#1", none, 3, 0⟩
    let nameless : Token := ⟨.string, "", none, 9, 1⟩
    let r : Renamer := ⟨7, ⟨.initial, 2⟩⟩
    let requests : List Request := [.fresh marked, .fresh nameless, .token .identifier "z9" none 40,
      .fresh ⟨.identifier, "z9", none, 40, 4⟩, .fresh ⟨.identifier, "a#1#7", none, 3, 2⟩,
      .fresh marked]
    let log := (r.performAll requests).1
    r.Supplies requests log (r.performAll requests).2 ∧ (∀ entry ∈ log, ∃ t, entry.2 = .ok t) ∧
      (log.pairs.map fun pair => pair.2.lexeme) = ["a#1#7", "#8", "z9#9", "a#1#7#10", "a#1#11"] ∧
      log.tokens.map Token.site = [2, 3, 4, 5, 6, 7] := by
  intro marked nameless r requests log
  have supplies := r.fresh_names_apart requests
  exact ⟨supplies, supplies.granted (by decide) (by decide +kernel), by decide +kernel,
    by decide +kernel⟩

theorem length_tokens_replicate {kind : TokenKind} {lexeme : String} {literal : Option Value}
    {offset code : UInt32} (known : r.symbols.names.number? lexeme = some code) (n : Nat)
    (rest : List Request) :
    (r.performAll (List.replicate n (.token kind lexeme literal offset) ++ rest)).1.tokens.length =
      n + (performAll { r with symbols.nextSite := r.symbols.nextSite + .ofNat n }
        rest).1.tokens.length := by
  induction n generalizing r with
  | zero => simp
  | succ n ih =>
    have interned := Interner.intern_of_known known
    have given : r.perform (.token kind lexeme literal offset) =
        (.ok ⟨kind, lexeme, literal, offset, r.symbols.nextSite⟩,
          { r with symbols.nextSite := r.symbols.nextSite + 1 }) := by
      rw [perform, Symbols.token, interned]
    have site : r.symbols.nextSite + 1 + .ofNat n = r.symbols.nextSite + .ofNat (n + 1) := by
      rw [UInt32.ofNat_add]
      ac_rfl
    have later := ih (r := { r with symbols.nextSite := r.symbols.nextSite + 1 }) known
    rw [List.replicate_succ, List.cons_append, performAll_cons, given, tokens_cons_ok,
      List.length_cons, later, site]
    exact Nat.add_right_comm n _ 1

/-- After `2 ^ 32` tokens named `print` a fresh one has the site of the first of them. -/
theorem fresh_site_recurs : ¬ ∀ requests : List Request, requests.countP Request.isFresh < UInt32.size →
    ((initial.performAll requests).1.tokens.map Token.site).Nodup := by
  intro distinct
  let printToken : Request := .token .identifier "print" none 0
  let requests := List.replicate UInt32.size printToken ++ [.fresh ⟨.identifier, "x", none, 0, 0⟩]
  have known : initial.symbols.names.number? "print" = some 11 := by decide +kernel
  have length : (initial.performAll requests).1.tokens.length = UInt32.size + 1 :=
    (length_tokens_replicate known UInt32.size _).trans (congrArg (UInt32.size + ·) (by decide +kernel))
  have few : requests.countP Request.isFresh < UInt32.size := by
    rw [List.countP_append, List.countP_replicate]
    decide
  have apart := List.pairwise_map.mp (distinct requests few)
  have first : 0 < (initial.performAll requests).1.tokens.length := by omega
  have last : UInt32.size < (initial.performAll requests).1.tokens.length := by omega
  refine List.pairwise_iff_getElem.mp apart 0 UInt32.size first last (by decide) ?_
  have supplies := initial.fresh_names_apart requests
  exact (supplies.recurs 0 UInt32.size _ _ (List.getElem?_eq_getElem first)
    (List.getElem?_eq_getElem last)).mpr (by rw [Nat.mod_self, Nat.zero_mod])

end Renamer

end LetLang
