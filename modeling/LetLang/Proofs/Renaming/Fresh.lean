import LetLang.Declaration.Hygiene
import LetLang.Proofs.Interning

/-!
# Fresh names

A fresh name is a name, the mark `#` and a number. The last mark splits it again, so fresh names of
different numbers differ, and none of them is a name without a mark.
-/

namespace LetLang

/-- Whether a name could be the name of a program. -/
def Plain (name : String) : Prop := '#' ∉ name.toList

instance (name : String) : Decidable (Plain name) := inferInstanceAs (Decidable (_ ∉ _))

/-- The next `n` tokens get none of the sites of `ts`. -/
def Symbols.Spares (symbols : Symbols) (n : Nat) (ts : List Token) : Prop :=
  ∀ t ∈ ts, ∀ i < n, symbols.nextSite + .ofNat i ≠ t.site

instance (symbols : Symbols) (n : Nat) (ts : List Token) : Decidable (symbols.Spares n ts) :=
  inferInstanceAs (Decidable (∀ t ∈ ts, ∀ i < n, symbols.nextSite + .ofNat i ≠ t.site))

namespace Symbols.Spares

variable {symbols after : Symbols} {m n : Nat} {ts us : List Token}

theorem mono (spares : symbols.Spares m ts) (le : n ≤ m) (sub : us ⊆ ts) : symbols.Spares n us :=
  fun t member i below => spares t (sub member) i (Nat.lt_of_lt_of_le below le)

theorem later (spares : symbols.Spares (m + n) ts)
    (advanced : after.nextSite = symbols.nextSite + .ofNat m) : after.Spares n ts := by
  intro t member i below
  rw [advanced, UInt32.add_assoc, ← UInt32.ofNat_add]
  exact spares t member (m + i) (Nat.add_lt_add_left below m)

/-- Until the sites start again, none of them is that of a token from before. -/
theorem of_issued (before : ∀ t ∈ ts, t.site < symbols.nextSite)
    (few : symbols.nextSite.toNat + n ≤ UInt32.size) : symbols.Spares n ts := by
  intro t member i below same
  have room : symbols.nextSite.toNat + i < UInt32.size := by omega
  have ahead : (symbols.nextSite + .ofNat i).toNat = symbols.nextSite.toNat + i := by
    rw [UInt32.toNat_add, UInt32.toNat_ofNat_of_lt' (Nat.lt_of_add_left_lt room)]
    exact Nat.mod_eq_of_lt room
  have behind := UInt32.lt_iff_toNat_lt.mp (before t member)
  rw [← same, ahead] at behind
  omega

end Symbols.Spares

namespace Renamer

def original (name : String) : String :=
  if Plain name then name
  else String.ofList ((name.toList.reverse.dropWhile (· ≠ '#')).drop 1).reverse

theorem toList_freshLexeme (lexeme : String) (n : Nat) :
    (freshLexeme lexeme n).toList = lexeme.toList ++ '#' :: Nat.toDigits 10 n := by
  simp [freshLexeme, Nat.toList_repr]

theorem mark_notMem_toDigits (n : Nat) : '#' ∉ Nat.toDigits 10 n := by
  intro member
  have digit := Nat.isDigit_of_mem_toDigits (by decide) (by decide) member
  exact absurd digit (by decide)

theorem not_plain_freshLexeme (lexeme : String) (n : Nat) : ¬ Plain (freshLexeme lexeme n) := by
  simp [Plain, toList_freshLexeme]

theorem original_freshLexeme (lexeme : String) (n : Nat) :
    original (freshLexeme lexeme n) = lexeme := by
  have digits : ∀ c ∈ (Nat.toDigits 10 n).reverse, decide (c ≠ '#') = true := by
    intro c member
    simp only [decide_eq_true_eq]
    rintro rfl
    exact mark_notMem_toDigits n (List.mem_reverse.mp member)
  rw [original, if_neg (not_plain_freshLexeme lexeme n), toList_freshLexeme, List.reverse_append,
    List.reverse_cons, List.append_assoc, List.dropWhile_append_of_pos digits]
  simp

theorem original_of_plain {name : String} (plain : Plain name) : original name = name :=
  if_pos plain

theorem freshLexeme_inj {a b : String} {i j : Nat} :
    freshLexeme a i = freshLexeme b j ↔ a = b ∧ i = j := by
  constructor
  · intro same
    have names : a = b := by
      have := congrArg original same
      rwa [original_freshLexeme, original_freshLexeme] at this
    subst names
    have digits := congrArg String.toList same
    rw [toList_freshLexeme, toList_freshLexeme, List.append_cancel_left_eq, List.cons.injEq] at digits
    have numbers := congrArg (fun ds => Nat.ofDigitChars 10 ds 0) digits.2
    exact ⟨rfl, by simpa using numbers⟩
  · rintro ⟨rfl, rfl⟩
    rfl

variable {r after : Renamer} {t f : Token} {ts fs : List Token}

def derive (r : Renamer) (n : Nat) (t : Token) : Token :=
  { t with
    lexeme := freshLexeme t.lexeme (r.issued.toNat + n)
    site := r.symbols.nextSite + .ofNat n }

def next (r : Renamer) (t : Token) : Renamer :=
  ⟨r.issued + 1, (r.symbols.names.intern (r.derive 0 t).lexeme).2, r.symbols.nextSite + 1⟩

structure Ready (r : Renamer) (t : Token) : Prop where
  counter : r.issued.toNat + 1 < UInt32.size
  names : r.symbols.names.number? (r.derive 0 t).lexeme ≠ none ∨ r.symbols.names.size < UInt32.size

theorem toNat_issued_succ (counter : r.issued.toNat + 1 < UInt32.size) :
    (r.issued + 1).toNat = r.issued.toNat + 1 := by
  rw [UInt32.toNat_add, UInt32.toNat_one]
  exact Nat.mod_eq_of_lt counter

theorem derive_next (counter : r.issued.toNat + 1 < UInt32.size) (t : Token) (n : Nat) :
    (r.next t).derive n = r.derive (n + 1) := by
  have number : (r.next t).issued.toNat + n = r.issued.toNat + (n + 1) := by
    rw [next, toNat_issued_succ counter]
    omega
  have site : r.symbols.nextSite + 1 + .ofNat n = r.symbols.nextSite + .ofNat (n + 1) := by
    rw [UInt32.ofNat_add]
    ac_rfl
  funext u
  rw [derive, derive, number, ← site]
  rfl

theorem fresh_of_ready (ready : r.Ready t) : r.fresh t = (.ok (r.derive 0 t), r.next t) := by
  have interned : ∃ n, (r.symbols.names.intern (r.derive 0 t).lexeme).1 = .ok n := by
    rcases ready.names with known | room
    · obtain ⟨n, known⟩ := Option.ne_none_iff_exists'.mp known
      exact ⟨n, by rw [Interner.intern_of_known known]⟩
    · exact Interner.intern_ok _ room
  obtain ⟨n, interned⟩ := interned
  have called : r.symbols.names.intern (freshLexeme t.lexeme r.issued.toNat) =
      (.ok n, (r.symbols.names.intern (r.derive 0 t).lexeme).2) := Prod.ext interned rfl
  have site : r.symbols.nextSite + .ofNat 0 = r.symbols.nextSite := UInt32.add_zero _
  rw [fresh, if_pos ready.counter, Symbols.renamed, Symbols.token, called, next, derive, site]
  rfl

theorem fresh_of_full (counter : r.issued.toNat + 1 < UInt32.size) (unready : ¬ r.Ready t) :
    r.fresh t = (.error .namesExhausted, ⟨r.issued + 1, r.symbols⟩) := by
  have full : r.symbols.names.number? (r.derive 0 t).lexeme = none ∧
      ¬ r.symbols.names.size < UInt32.size := by
    refine ⟨Classical.not_not.mp fun known => ?_, fun room => ?_⟩
    · exact unready ⟨counter, .inl known⟩
    · exact unready ⟨counter, .inr room⟩
  have called : r.symbols.names.intern (freshLexeme t.lexeme r.issued.toNat) =
      (.error .namesExhausted, r.symbols.names) := by
    rw [Interner.intern_eq_enter]
    exact Interner.enter_of_full full.1 full.2
  rw [fresh, if_pos counter, Symbols.renamed, Symbols.token, called]

theorem fresh_of_overflow (counter : ¬ r.issued.toNat + 1 < UInt32.size) :
    r.fresh t = (.error .counterOverflow, r) := if_neg counter

theorem fresh_cases (r : Renamer) (t : Token) :
    (r.Ready t ∧ r.fresh t = (.ok (r.derive 0 t), r.next t)) ∨
      ¬ r.Ready t ∧ ∃ f issued, r.fresh t = (.error f, ⟨issued, r.symbols⟩) ∧
        r.issued.toNat ≤ issued.toNat ∧ f.isOverflow = true := by
  by_cases ready : r.Ready t
  · exact .inl ⟨ready, fresh_of_ready ready⟩
  · refine .inr ⟨ready, ?_⟩
    by_cases counter : r.issued.toNat + 1 < UInt32.size
    · refine ⟨_, _, fresh_of_full counter ready, ?_, rfl⟩
      rw [toNat_issued_succ counter]
      exact Nat.le_succ _
    · exact ⟨_, _, fresh_of_overflow counter, Nat.le_refl _, rfl⟩

/-- The fresh tokens for the given ones, where there is room for them all. -/
def freshTokens (r : Renamer) (ts : List Token) : List Token := ts.mapIdx r.derive

def nextAll (r : Renamer) (ts : List Token) : Renamer := ts.foldl next r

theorem length_freshTokens (r : Renamer) (ts : List Token) : (r.freshTokens ts).length = ts.length :=
  List.length_mapIdx

theorem freshTokens_cons (counter : r.issued.toNat + 1 < UInt32.size) (t : Token) (ts : List Token) :
    r.freshTokens (t :: ts) = r.derive 0 t :: (r.next t).freshTokens ts := by
  rw [freshTokens, List.mapIdx_cons, freshTokens]
  refine congrArg (r.derive 0 t :: ·) (List.mapIdx_eq_mapIdx_iff.mpr fun i _ => ?_)
  rw [derive_next counter]

theorem freshAll_cons_of_ready (ready : r.Ready t) (ts : List Token) :
    r.freshAll (t :: ts) =
      (((r.next t).freshAll ts).1.map (r.derive 0 t :: ·), ((r.next t).freshAll ts).2) := by
  rw [freshAll, fresh_of_ready ready]

theorem freshAll_cons_eq_ok (h : r.freshAll (t :: ts) = (.ok fs, after)) :
    r.Ready t ∧ ∃ rest, (r.next t).freshAll ts = (.ok rest, after) ∧ fs = r.derive 0 t :: rest := by
  rcases r.fresh_cases t with ⟨ready, _⟩ | ⟨_, f, issued, failed, _⟩
  · refine ⟨ready, ?_⟩
    rw [freshAll_cons_of_ready ready] at h
    rcases called : (r.next t).freshAll ts with ⟨outcome, last⟩
    rw [called] at h
    cases outcome with
    | error f => cases (Prod.mk.inj h).1
    | ok rest =>
      obtain ⟨tokens, rfl⟩ := Prod.mk.inj h
      exact ⟨rest, rfl, (Except.ok.inj tokens).symm⟩
  · rw [freshAll, failed] at h
    cases (Prod.mk.inj h).1

theorem isOverflow_of_freshAll {fault : Fault} (h : (r.freshAll ts).1 = .error fault) :
    fault.isOverflow = true := by
  induction ts generalizing r with
  | nil => cases h
  | cons t ts ih =>
    rcases r.fresh_cases t with ⟨ready, _⟩ | ⟨_, f, issued, failed, _, overflow⟩
    · rw [freshAll_cons_of_ready ready] at h
      cases later : ((r.next t).freshAll ts).1 with
      | error f =>
        rw [later] at h
        obtain rfl := Except.error.inj h
        exact ih later
      | ok rest =>
        rw [later] at h
        cases h
    · rw [freshAll, failed] at h
      obtain rfl := Except.error.inj h
      exact overflow

theorem mem_freshTokens (member : f ∈ r.freshTokens ts) :
    ∃ t ∈ ts, ∃ n < ts.length, f = r.derive n t := by
  obtain ⟨n, below, same⟩ := List.mem_mapIdx.mp member
  exact ⟨ts[n], List.getElem_mem below, n, below, same.symm⟩

theorem spares_iff {us : List Token} : r.symbols.Spares ts.length us ↔
    ∀ f ∈ r.freshTokens ts, ∀ u ∈ us, f.site ≠ u.site := by
  constructor
  · intro spares f member u given
    obtain ⟨_, _, n, below, rfl⟩ := mem_freshTokens member
    exact spares u given n below
  · intro apart u given n below
    exact apart (r.derive n ts[n]) (List.mem_mapIdx.mpr ⟨n, below, rfl⟩) u given

theorem issued_nextAll (room : r.issued.toNat + ts.length < UInt32.size) :
    (r.nextAll ts).issued.toNat = r.issued.toNat + ts.length := by
  induction ts generalizing r with
  | nil => rfl
  | cons t ts ih =>
    rw [List.length_cons] at room ⊢
    have counter : (r.next t).issued.toNat = r.issued.toNat + 1 := toNat_issued_succ (by omega)
    rw [nextAll, List.foldl_cons, ← nextAll, ih (by omega), counter]
    omega

theorem nextSite_nextAll (r : Renamer) (ts : List Token) :
    (r.nextAll ts).symbols.nextSite = r.symbols.nextSite + .ofNat ts.length := by
  induction ts generalizing r with
  | nil => exact (UInt32.add_zero _).symm
  | cons t ts ih =>
    rw [nextAll, List.foldl_cons, ← nextAll, ih, List.length_cons, UInt32.ofNat_add, next]
    show r.symbols.nextSite + 1 + _ = r.symbols.nextSite + (_ + 1)
    ac_rfl

theorem names_nextAll (room : r.issued.toNat + ts.length < UInt32.size) :
    (r.nextAll ts).symbols.names =
      r.symbols.names.internAll ((r.freshTokens ts).map Token.lexeme) := by
  induction ts generalizing r with
  | nil => rfl
  | cons t ts ih =>
    rw [List.length_cons] at room
    have counter : (r.next t).issued.toNat = r.issued.toNat + 1 := toNat_issued_succ (by omega)
    rw [nextAll, List.foldl_cons, ← nextAll, ih (by omega), freshTokens_cons (by omega)]
    rfl

theorem nodup_lexemes_freshTokens (r : Renamer) (ts : List Token) :
    ((r.freshTokens ts).map Token.lexeme).Nodup := by
  refine List.pairwise_map.mpr (List.pairwise_iff_getElem.mpr fun i j _ _ less same => ?_)
  simp only [freshTokens, List.getElem_mapIdx, derive] at same
  have numbers := (freshLexeme_inj.mp same).2
  omega

/-- Sites of 32 bits are the same exactly for numbers with the same rest. -/
theorem site_eq_iff {start : UInt32} {m n : Nat} :
    start + .ofNat m = start + .ofNat n ↔ m % UInt32.size = n % UInt32.size := by
  rw [UInt32.add_right_inj, ← UInt32.toNat_inj, UInt32.toNat_ofNat', UInt32.toNat_ofNat']

theorem nodup_sites_freshTokens (r : Renamer) (few : ts.length ≤ UInt32.size) :
    ((r.freshTokens ts).map Token.site).Nodup := by
  refine List.pairwise_map.mpr (List.pairwise_iff_getElem.mpr fun i j first last less same => ?_)
  rw [length_freshTokens] at first last
  simp only [freshTokens, List.getElem_mapIdx, derive, site_eq_iff] at same
  rw [Nat.mod_eq_of_lt (by omega), Nat.mod_eq_of_lt (by omega)] at same
  omega

theorem sites_freshTokens (r : Renamer) (ts : List Token) : (r.freshTokens ts).map Token.site =
    (List.range ts.length).map fun n => r.symbols.nextSite + .ofNat n := by
  refine List.ext_getElem (by simp [length_freshTokens]) fun i _ _ => ?_
  simp only [freshTokens, List.getElem_map, List.getElem_mapIdx, derive, List.getElem_range]

theorem lexemes_freshTokens (r : Renamer) (ts : List Token) : (r.freshTokens ts).map Token.lexeme =
    (ts.zipIdx r.issued.toNat).map fun (t, n) => freshLexeme t.lexeme n := by
  refine List.ext_getElem (by simp [length_freshTokens]) fun i _ _ => ?_
  simp only [freshTokens, List.getElem_map, List.getElem_mapIdx, List.getElem_zipIdx, derive]

theorem original_freshTokens (r : Renamer) (ts : List Token) :
    (r.freshTokens ts).map (fun f => original f.lexeme) = ts.map Token.lexeme := by
  refine List.ext_getElem (by simp [length_freshTokens]) fun i _ _ => ?_
  simp only [freshTokens, List.getElem_map, List.getElem_mapIdx, derive, original_freshLexeme]

/-! ### Room for fresh tokens -/

/-- How many of the fresh names for the given tokens are new to the interner. -/
def newNames (r : Renamer) (ts : List Token) : Nat :=
  (r.freshTokens ts).countP fun f => r.symbols.names.number? f.lexeme = none

/-- Counter and interner have room for a fresh token of each of the given ones. -/
structure HasRoom (r : Renamer) (ts : List Token) : Prop where
  counter : r.issued.toNat + ts.length < UInt32.size
  names : r.symbols.names.size + r.newNames ts ≤ UInt32.size

instance (r : Renamer) (ts : List Token) : Decidable (r.HasRoom ts) :=
  decidable_of_iff (_ ∧ _) ⟨fun h => ⟨h.1, h.2⟩, fun h => ⟨h.counter, h.names⟩⟩

theorem hasRoom_nil (r : Renamer) : r.HasRoom [] :=
  ⟨UInt32.toNat_lt_size _, r.symbols.names.bounded⟩

theorem hasRoom_of_le (counter : r.issued.toNat + ts.length < UInt32.size)
    (names : r.symbols.names.size + ts.length ≤ UInt32.size) : r.HasRoom ts := by
  have few : r.newNames ts ≤ ts.length :=
    Nat.le_trans List.countP_le_length (Nat.le_of_eq (r.length_freshTokens ts))
  exact ⟨counter, by omega⟩

theorem newNames_cons (counter : r.issued.toNat + 1 < UInt32.size) (t : Token) (ts : List Token) :
    r.newNames (t :: ts) = (r.next t).newNames ts +
      if r.symbols.names.number? (r.derive 0 t).lexeme = none then 1 else 0 := by
  have distinct := r.nodup_lexemes_freshTokens (t :: ts)
  rw [freshTokens_cons counter, List.map_cons, List.nodup_cons] at distinct
  have same : ∀ f ∈ (r.next t).freshTokens ts,
      (r.next t).symbols.names.number? f.lexeme = r.symbols.names.number? f.lexeme := by
    intro f member
    refine Interner.number?_intern_of_ne fun again => distinct.1 ?_
    exact List.mem_map.mpr ⟨f, member, again⟩
  have later : (r.next t).newNames ts = ((r.next t).freshTokens ts).countP fun f =>
      r.symbols.names.number? f.lexeme = none :=
    List.countP_congr fun f member => by rw [same f member]
  rw [newNames, freshTokens_cons counter, List.countP_cons, later]
  simp

theorem hasRoom_cons : r.HasRoom (t :: ts) ↔ r.Ready t ∧ (r.next t).HasRoom ts := by
  by_cases counter : r.issued.toNat + 1 < UInt32.size
  · have issued : (r.next t).issued.toNat = r.issued.toNat + 1 := toNat_issued_succ counter
    have names := newNames_cons counter t ts
    cases known : r.symbols.names.number? (r.derive 0 t).lexeme with
    | some n =>
      -- A name that is known already takes no room.
      have kept : (r.next t).symbols.names = r.symbols.names :=
        congrArg Prod.snd (Interner.intern_of_known known)
      have ready : r.Ready t := ⟨counter, .inl (by simp [known])⟩
      rw [known, if_neg nofun] at names
      refine ⟨fun ⟨count, room⟩ => ⟨ready, ?_, ?_⟩, fun ⟨_, count, room⟩ => ⟨?_, ?_⟩⟩
      · rw [List.length_cons] at count
        omega
      · rw [kept]
        omega
      · rw [List.length_cons]
        omega
      · rw [kept] at room
        omega
    | none =>
      rw [known, if_pos rfl] at names
      have grown : ∀ room : r.symbols.names.size < UInt32.size,
          (r.next t).symbols.names.size = r.symbols.names.size + 1 := fun room => by
        rw [next, Interner.intern_of_new known room, Interner.size_push]
      refine ⟨fun ⟨count, room⟩ => ?_, fun ⟨ready, count, room⟩ => ⟨?_, ?_⟩⟩
      · have space : r.symbols.names.size < UInt32.size := by omega
        have size := grown space
        rw [List.length_cons] at count
        exact ⟨⟨counter, .inr space⟩, by omega, by omega⟩
      · rw [List.length_cons]
        omega
      · have size := grown (ready.names.resolve_left fun other => other known)
        omega
  · refine iff_of_false (fun ⟨count, _⟩ => counter ?_) fun ⟨ready, _⟩ => counter ready.counter
    rw [List.length_cons] at count
    omega

theorem freshAll_of_hasRoom (room : r.HasRoom ts) :
    r.freshAll ts = (.ok (r.freshTokens ts), r.nextAll ts) := by
  induction ts generalizing r with
  | nil => rfl
  | cons t ts ih =>
    obtain ⟨ready, room⟩ := hasRoom_cons.mp room
    rw [freshAll_cons_of_ready ready, ih room, freshTokens_cons ready.counter]
    rfl

theorem freshAll_eq_ok_iff : r.freshAll ts = (.ok fs, after) ↔
    r.HasRoom ts ∧ fs = r.freshTokens ts ∧ after = r.nextAll ts := by
  refine ⟨fun given => ?_, ?_⟩
  · induction ts generalizing r fs with
    | nil =>
      cases given
      exact ⟨hasRoom_nil _, rfl, rfl⟩
    | cons t ts ih =>
      obtain ⟨ready, rest, later, rfl⟩ := freshAll_cons_eq_ok given
      obtain ⟨room, rfl, rfl⟩ := ih later
      rw [freshTokens_cons ready.counter]
      exact ⟨hasRoom_cons.mpr ⟨ready, room⟩, rfl, rfl⟩
  · rintro ⟨room, rfl, rfl⟩
    exact freshAll_of_hasRoom room

theorem freshAll_advances (r : Renamer) (ts : List Token) :
    ∃ n ≤ ts.length, r.issued.toNat + n ≤ (r.freshAll ts).2.issued.toNat ∧
      (r.freshAll ts).2.symbols.nextSite = r.symbols.nextSite + .ofNat n := by
  induction ts generalizing r with
  | nil => exact ⟨0, Nat.le_refl _, Nat.le_refl _, (UInt32.add_zero _).symm⟩
  | cons t ts ih =>
    rcases r.fresh_cases t with ⟨ready, _⟩ | ⟨_, f, issued, failed, above, _⟩
    · obtain ⟨n, few, counted, site⟩ := ih (r.next t)
      rw [freshAll_cons_of_ready ready, List.length_cons]
      dsimp only
      have counter : (r.next t).issued.toNat = r.issued.toNat + 1 :=
        toNat_issued_succ ready.counter
      refine ⟨n + 1, by omega, by omega, site.trans ?_⟩
      rw [UInt32.ofNat_add]
      show r.symbols.nextSite + 1 + _ = r.symbols.nextSite + (_ + 1)
      ac_rfl
    · rw [freshAll, failed]
      exact ⟨0, Nat.zero_le _, above, (UInt32.add_zero _).symm⟩

end Renamer

end LetLang
