import LetLang.Proofs.Renaming.Printing
import LetLang.Proofs.Renaming.Uses

/-!
# Hygienic declarations

A declaration as a parser makes it, and what is stored for it. Only names have changed, and all of
them mean what they did.
-/

namespace LetLang

/-- The fresh tokens for all the declarations get none of the sites of their parameters. -/
def Symbols.SparesAll (symbols : Symbols) (ds : List Declaration) : Prop :=
  symbols.Spares (ds.flatMap Declaration.params).length (ds.flatMap Declaration.params)

instance (symbols : Symbols) (ds : List Declaration) : Decidable (symbols.SparesAll ds) :=
  inferInstanceAs (Decidable (symbols.Spares _ _))

namespace Symbols.SparesAll

variable {symbols after : Symbols} {d : Declaration} {ds others : List Declaration}

theorem head (spares : symbols.SparesAll (d :: ds)) : symbols.Spares d.arity d.params :=
  spares.mono (by rw [List.flatMap_cons, List.length_append]; exact Nat.le_add_right _ _)
    (List.subset_append_left _ _)

theorem tail (spares : symbols.SparesAll (d :: ds))
    (advanced : after.nextSite = symbols.nextSite + .ofNat d.arity) : after.SparesAll ds :=
  (spares.mono (Nat.le_of_eq List.length_append.symm) (List.subset_append_right _ _)).later advanced

theorem perm (spares : symbols.SparesAll ds) (reordered : ds.Perm others) :
    symbols.SparesAll others :=
  have params : (others.flatMap Declaration.params).Perm (ds.flatMap Declaration.params) :=
    (reordered.flatMap_right _).symm
  spares.mono (Nat.le_of_eq params.length_eq) params.subset

end Symbols.SparesAll

namespace Declaration

theorem firstRepeated_eq_none_iff {seen : List String} {ts : List Token} :
    firstRepeated seen ts = none ↔
      (ts.map Token.lexeme).Nodup ∧ ∀ t ∈ ts, t.lexeme ∉ seen := by
  induction ts generalizing seen with
  | nil => simp [firstRepeated]
  | cons t ts ih =>
    by_cases again : t.lexeme ∈ seen
    · simp [firstRepeated, again]
    · rw [firstRepeated, if_neg again, ih, List.map_cons, List.nodup_cons, List.forall_mem_cons]
      constructor
      · rintro ⟨distinct, apart⟩
        refine ⟨⟨?_, distinct⟩, again, fun u member => List.not_mem_of_not_mem_cons (apart u member)⟩
        intro repeated
        obtain ⟨u, member, same⟩ := List.mem_map.mp repeated
        exact List.ne_of_not_mem_cons (apart u member) same
      · rintro ⟨⟨head, distinct⟩, _, apart⟩
        refine ⟨distinct, fun u member => List.not_mem_cons_of_ne_of_not_mem ?_ (apart u member)⟩
        intro same
        exact head (List.mem_map.mpr ⟨u, member, same⟩)

theorem ofParts_eq_ok_iff {name : Token} {params : List Token} {body : Expr} {d : Declaration} :
    ofParts name params body = .ok d ↔
      (params.map Token.lexeme).Nodup ∧ d = ⟨name, params, body⟩ := by
  unfold ofParts
  cases repeated : firstRepeated [] params with
  | some p =>
    have again : ¬ (params.map Token.lexeme).Nodup := fun distinct => by
      have nowhere : firstRepeated [] params = none :=
        firstRepeated_eq_none_iff.mpr ⟨distinct, by simp⟩
      rw [repeated] at nowhere
      cases nowhere
    simp [again]
  | none =>
    have distinct := (firstRepeated_eq_none_iff.mp repeated).1
    simp [distinct, eq_comm (b := d)]

/-- A declaration as it comes from a program: its parameters have different names, no name has the
mark of a fresh one, and every occurrence in the body is a token of its own. -/
structure Source (d : Declaration) : Prop where
  built : ofParts d.name d.params d.body = .ok d
  plain : ∀ t ∈ d.tokens, Plain t.lexeme
  unshared : ∀ t ∈ d.body.tokens, ∀ p ∈ d.params, t.site ≠ p.site

variable {d stored : Declaration} {r after : Renamer}

/-- What is stored for `d` where the fresh names do not run out. -/
def renamed (d : Declaration) (r : Renamer) : Declaration := d.withParams (r.freshTokens d.params)

theorem hygienic_eq_ok_iff : d.hygienic r = (.ok stored, after) ↔
    r.HasRoom d.params ∧ stored = d.renamed r ∧ after = r.nextAll d.params := by
  constructor
  · intro made
    rcases given : r.freshAll d.params with ⟨outcome, last⟩
    rw [hygienic, given] at made
    cases outcome with
    | error f => cases (Prod.mk.inj made).1
    | ok fresh =>
      obtain ⟨declared, rfl⟩ := Prod.mk.inj made
      obtain rfl := Except.ok.inj declared
      obtain ⟨room, rfl, rfl⟩ := Renamer.freshAll_eq_ok_iff.mp given
      exact ⟨room, rfl, rfl⟩
  · rintro ⟨room, rfl, rfl⟩
    rw [hygienic, Renamer.freshAll_of_hasRoom room]
    rfl

theorem hygienic_of_hasRoom (room : r.HasRoom d.params) : (d.hygienic r).1 = .ok (d.renamed r) :=
  congrArg Prod.fst (hygienic_eq_ok_iff.mpr ⟨room, rfl, rfl⟩)

theorem not_hasRoom_of_hygienic {f : Fault} (failed : d.hygienic r = (.error f, after)) :
    ¬ r.HasRoom d.params := by
  intro room
  cases failed.symm.trans (hygienic_eq_ok_iff.mpr ⟨room, rfl, rfl⟩)

theorem isOverflow_of_hygienic {f : Fault} (failed : (d.hygienic r).1 = .error f) :
    f.isOverflow = true := by
  rcases given : r.freshAll d.params with ⟨outcome, last⟩
  rw [hygienic, given] at failed
  cases outcome with
  | ok fresh => cases failed
  | error g =>
    cases failed
    exact Renamer.isOverflow_of_freshAll (congrArg Prod.fst given)

namespace Source

theorem distinct (source : d.Source) : (d.params.map Token.lexeme).Nodup :=
  (ofParts_eq_ok_iff.mp source.built).1

theorem plain_name (source : d.Source) : Plain d.name.lexeme := source.plain _ List.mem_cons_self

theorem plain_param (source : d.Source) {p : Token} (member : p ∈ d.params) : Plain p.lexeme :=
  source.plain p (List.mem_cons_of_mem _ (List.mem_append_left _ member))

theorem plain_body (source : d.Source) {t : Token} (member : t ∈ d.body.tokens) :
    Plain t.lexeme :=
  source.plain t (List.mem_cons_of_mem _ (List.mem_append_right _ member))

end Source

def freshPairs (d : Declaration) (r : Renamer) : List (Token × Token) :=
  d.params.zip (r.freshTokens d.params)

theorem fst_freshPairs (d : Declaration) (r : Renamer) :
    (d.freshPairs r).map Prod.fst = d.params :=
  List.map_fst_zip (Nat.le_of_eq (Renamer.length_freshTokens r d.params).symm)

theorem snd_freshPairs (d : Declaration) (r : Renamer) :
    (d.freshPairs r).map Prod.snd = r.freshTokens d.params :=
  List.map_snd_zip (Nat.le_of_eq (Renamer.length_freshTokens r d.params))

theorem nodup_snd_freshPairs (d : Declaration) (r : Renamer) :
    ((d.freshPairs r).map fun pair => pair.2.lexeme).Nodup := by
  have names := Renamer.nodup_lexemes_freshTokens r d.params
  rwa [← snd_freshPairs d r, List.map_map] at names

theorem fst_mem_params {pair : Token × Token} (member : pair ∈ d.freshPairs r) :
    pair.1 ∈ d.params := (List.of_mem_zip member).1

theorem snd_not_plain {pair : Token × Token} (member : pair ∈ d.freshPairs r) :
    ¬ Plain pair.2.lexeme := by
  obtain ⟨_, _, n, _, same⟩ := Renamer.mem_freshTokens (List.of_mem_zip member).2
  rw [same]
  exact Renamer.not_plain_freshLexeme _ _

theorem separate_freshPairs (distinct : (d.params.map Token.lexeme).Nodup)
    (plain : ∀ p ∈ d.params, Plain p.lexeme) (spared : r.symbols.Spares d.arity d.params) :
    Token.Separate (d.freshPairs r) := by
  have names : (d.freshPairs r).Pairwise fun first next => first.1.lexeme ≠ next.1.lexeme := by
    rw [← fst_freshPairs d r, List.map_map] at distinct
    exact List.pairwise_map.mp distinct
  refine names.imp_of_mem fun first next apart => ⟨apart, ?_, ?_⟩
  · intro same
    exact snd_not_plain first (same ▸ plain _ (fst_mem_params next))
  · -- A pass takes up again what an earlier one has put in only by the site.
    exact Renamer.spares_iff.mp spared _ (List.of_mem_zip first).2 _ (fst_mem_params next)

theorem renamed_eq (source : d.Source) (spared : r.symbols.Spares d.arity d.params) :
    d.renamed r = ⟨d.name, r.freshTokens d.params, d.body.renameAll (d.freshPairs r)⟩ := by
  have named : ∀ t ∈ d.body.tokens, t.Named (d.freshPairs r) := by
    intro t member p here q _ same
    rw [fst_freshPairs] at here
    exact absurd same (source.unshared t member p here)
  have separate := separate_freshPairs source.distinct (fun _ => source.plain_param) spared
  have body : renameBody d.body (d.freshPairs r) = d.body.renameAll (d.freshPairs r) :=
    renameBody_eq separate named
  rw [← body]
  rfl

theorem Source.ordinary_body (source : d.Source) {t : Token} (member : t ∈ d.body.tokens) :
    t.Ordinary (d.freshPairs r) :=
  ⟨source.plain_body member, fun _ here => source.unshared t member _ (fst_mem_params here)⟩

theorem original_snd {pair : Token × Token} (member : pair ∈ d.freshPairs r) :
    Renamer.original pair.2.lexeme = pair.1.lexeme := by
  have derived := Renamer.original_freshTokens r d.params
  have params := congrArg (List.map Token.lexeme) (fst_freshPairs d r)
  rw [← snd_freshPairs d r, List.map_map, ← params, List.map_map] at derived
  exact List.map_inj_left.mp derived pair member

structure Resembles (d : Declaration) (symbols : Symbols) (stored : Declaration) : Prop where
  name : stored.name = d.name
  arity : stored.arity = d.arity
  distinct : (stored.params.map Token.lexeme).Nodup
  marked : ∀ p ∈ stored.params, ¬ Plain p.lexeme
  sites : (stored.params.map Token.site).Nodup ∧
    stored.params.map Token.site = (List.range d.arity).map fun n => symbols.nextSite + .ofNat n
  fresh : ∀ ts, symbols.Spares d.arity ts ↔ ∀ p ∈ stored.params, ∀ t ∈ ts, p.site ≠ t.site

/-- Under other names the body of `stored` is that of `d`. -/
structure Renames (d stored : Declaration) : Prop where
  outline : stored.body.outline = d.body.outline
  referents : stored.referents = d.referents
  bound : List.Forall₂ (fun u u' => u'.node = u.node ∧ u'.bound? = u.bound?) (d.body.uses [] [])
    (stored.body.uses [] [])
  print : (stored.mapNames Renamer.original).print = d.print
  unmark : (∀ t ∈ d.tokens, '"' ∉ t.lexeme.toList) → LetLang.unmark stored.print = d.print

theorem print_mapNames_stored (source : d.Source) :
    (mapNames Renamer.original
      ⟨d.name, r.freshTokens d.params, d.body.renameAll (d.freshPairs r)⟩).print = d.print := by
  have params : ((r.freshTokens d.params).map (Token.mapLexeme Renamer.original)).map Token.lexeme =
      d.params.map Token.lexeme := by
    rw [List.map_map]
    exact Renamer.original_freshTokens r d.params
  have body := Expr.printsBack (fun _ member => original_snd member) d.body (d.freshPairs r)
    (List.Subset.refl _) fun t member => source.ordinary_body member
  simp only [print, toExpr, mapNames, Expr.print, params, Expr.renameAll, body, Token.mapLexeme,
    Renamer.original_of_plain source.plain_name]

theorem unmarks_stored (source : d.Source) (unquoted : ∀ t ∈ d.tokens, '"' ∉ t.lexeme.toList) :
    Unmarks (print ⟨d.name, r.freshTokens d.params, d.body.renameAll (d.freshPairs r)⟩) d.print := by
  have bare : ∀ t ∈ d.tokens, Bare t.lexeme := fun t member c here =>
    ⟨fun same => source.plain t member (same ▸ here), fun same => unquoted t member (same ▸ here)⟩
  have legible : ∀ t ∈ d.tokens, t.Legible := fun t member => by
    rw [Token.Legible, Renamer.original_of_plain (source.plain t member)]
    exact (Closes.bare (bare t member)).unmarks
  have given : ∀ f ∈ r.freshTokens d.params, f.Legible := fun f member => by
    obtain ⟨t, present, n, _, rfl⟩ := Renamer.mem_freshTokens member
    rw [Token.Legible, Renamer.derive, Renamer.original_freshLexeme]
    exact .freshLexeme (bare t (List.mem_cons_of_mem _ (List.mem_append_left _ present))) _
  have body := Expr.tokens_renameIn
    (fun pair member => given pair.2 (List.of_mem_zip member).2) d.body (d.freshPairs r)
    (List.Subset.refl _) fun t member =>
      legible t (List.mem_cons_of_mem _ (List.mem_append_right _ member))
  rw [← print_mapNames_stored source (r := r)]
  exact Expr.unmarks_print _ (List.forall_mem_cons.mpr
    ⟨legible _ List.mem_cons_self, List.forall_mem_append.mpr ⟨given, body⟩⟩)

theorem referents_stored (source : d.Source) :
    referents ⟨d.name, r.freshTokens d.params, d.body.renameAll (d.freshPairs r)⟩ =
      d.referents := by
  have agree := Names.Agree.parameters 0 (nodup_snd_freshPairs d r) fun _ member =>
    snd_not_plain member
  rw [fst_freshPairs, snd_freshPairs] at agree
  exact Expr.keepsReferents d.body _ _ _ [] (List.Subset.refl _) agree fun t member =>
    source.ordinary_body member

theorem resembles (d : Declaration) {r : Renamer} (room : r.HasRoom d.params) :
    d.Resembles r.symbols (d.renamed r) := by
  have few : d.params.length ≤ UInt32.size := by
    have counter := room.counter
    omega
  exact {
    name := rfl
    arity := Renamer.length_freshTokens r d.params
    distinct := Renamer.nodup_lexemes_freshTokens r d.params
    marked := fun p member => by
      obtain ⟨_, _, n, _, rfl⟩ := Renamer.mem_freshTokens member
      exact Renamer.not_plain_freshLexeme _ _
    sites := ⟨Renamer.nodup_sites_freshTokens r few, Renamer.sites_freshTokens r d.params⟩
    fresh := fun _ => Renamer.spares_iff }

theorem renames (source : d.Source) (spared : r.symbols.Spares d.arity d.params) :
    d.Renames (d.renamed r) := by
  rw [renamed_eq source spared]
  exact {
    outline := Expr.outline_renameIn _ _ fun t member => source.ordinary_body member
    referents := referents_stored source
    bound := bound?_of_referents (referents_stored source)
    print := print_mapNames_stored source
    unmark := fun unquoted => unmark_eq (unmarks_stored source unquoted) }

/-- Making a declaration hygienic renames its parameters, and all else stays: the tree, what each
variable stands for, and the printed text up to the marks of the fresh names. It ends with a fault
exactly where counter or interner have no room for the fresh names. The body keeps its meaning, and
the sites are fresh, exactly if the next sites are not those of the parameters. -/
theorem hygienic_renames (source : d.Source) (r : Renamer) :
    (r.HasRoom d.params ↔ ∃ stored, (d.hygienic r).1 = .ok stored) ∧
      ∀ stored, (d.hygienic r).1 = .ok stored →
        d.Resembles r.symbols stored ∧
          ((d.Renames stored ∧ ∀ p ∈ stored.params, ∀ q ∈ d.params, p.site ≠ q.site) ↔
            r.symbols.Spares d.arity d.params) := by
  have made : ∀ stored, (d.hygienic r).1 = .ok stored → r.HasRoom d.params ∧ stored = d.renamed r :=
    fun stored made => by
      obtain ⟨room, same, _⟩ := hygienic_eq_ok_iff.mp (Prod.ext made rfl)
      exact ⟨room, same⟩
  refine ⟨⟨fun room => ⟨d.renamed r, hygienic_of_hasRoom room⟩,
    fun ⟨stored, ok⟩ => (made stored ok).1⟩, ?_⟩
  intro stored ok
  obtain ⟨room, rfl⟩ := made stored ok
  have similar := resembles d room
  refine ⟨similar, fun ⟨_, apart⟩ => (similar.fresh _).mpr apart, fun spared => ?_⟩
  exact ⟨renames source spared, (similar.fresh _).mp spared⟩

/-- A binding of `x` whose value is the parameter `x`, and a string with a mark in it. -/
theorem hygienic_renames_shadowed :
    let x : Token := ⟨.identifier, "x", none, 11, 1⟩
    let y : Token := ⟨.identifier, "y", none, 14, 2⟩
    let value : Expr := .binary .concat ⟨.atSign, "@", none, 31, 5⟩
      (.var ⟨.identifier, "x", none, 29, 4⟩) (.literal (.string "#0"))
    let body : Expr := .letIn [(⟨.identifier, "x", none, 25, 3⟩, value)]
      (.call ⟨.identifier, "g", none, 41, 6⟩
        [.var ⟨.identifier, "x", none, 43, 7⟩, .var ⟨.identifier, "y", none, 46, 8⟩])
    let d : Declaration := ⟨⟨.identifier, "f", none, 9, 0⟩, [x, y], body⟩
    let r : Renamer := ⟨3, ⟨.initial, 9⟩⟩
    d.Source ∧ r.symbols.Spares d.arity d.params ∧ r.HasRoom d.params ∧
      ∃ stored, (d.hygienic r).1 = .ok stored ∧ d.Resembles r.symbols stored ∧ d.Renames stored ∧
        stored.print = "function f(x#3, y#4) => let x = x#3 @ \"#0\" in g(x, y#4)" ∧
        unmark stored.print = "function f(x, y) => let x = x @ \"#0\" in g(x, y)" := by
  intro x y value body d r
  have source : d.Source := ⟨rfl, by decide, by decide⟩
  have spared : r.symbols.Spares d.arity d.params := .of_issued (by decide) (by decide)
  have room : r.HasRoom d.params := by decide +kernel
  obtain ⟨given, kept⟩ := hygienic_renames source r
  obtain ⟨stored, ok⟩ := given.mp room
  obtain ⟨resembles, meaning⟩ := kept stored ok
  obtain ⟨renames, _⟩ := meaning.mpr spared
  obtain rfl := (hygienic_eq_ok_iff.mp (Prod.ext ok rfl)).2.1
  have printed : d.print = "function f(x, y) => let x = x @ \"#0\" in g(x, y)" := by decide +kernel
  exact ⟨source, spared, room, _, ok, resembles, renames, by decide +kernel,
    (renames.unmark (by decide)).trans printed⟩

/-- After `2 ^ 32 - 2` more tokens the fresh `x` of `f(x, y) => x` has the site of `y`, so that it is
renamed once more together with `y`. -/
theorem hygienic_confuses : ¬ ∀ (d : Declaration) (r : Renamer) (stored : Declaration), d.Source →
    (d.hygienic r).1 = .ok stored → d.Renames stored := by
  intro renames
  let d : Declaration := ⟨⟨.identifier, "f", none, 9, 0⟩,
    [⟨.identifier, "x", none, 11, 1⟩, ⟨.identifier, "y", none, 14, 2⟩],
    .var ⟨.identifier, "x", none, 20, 3⟩⟩
  let r : Renamer := ⟨0, ⟨.initial, 2⟩⟩
  have source : d.Source := ⟨rfl, by decide, by decide⟩
  have room : r.HasRoom d.params := by decide +kernel
  have kept := (renames d r _ source (hygienic_of_hasRoom room)).referents
  exact absurd kept (by decide +kernel)

end Declaration

end LetLang
