import RebolScan.Proofs.Scan.Respaced

/-!
# Layout does not change meaning

Between two values that follow one another, at the top or in a block or paren at any depth, **the white
space and comments may be any others, and the source still says the same** (`transcode_relaid`): the
same values under the same names, read as strictly and as deep.

The two scans go abreast up to the place where the gap starts and are abreast again behind it. A scan
that read on across that place would not have collected two values that part there.
-/

set_option autoImplicit false

namespace RebolScan

open Ascii Scan

/-- A scan of either text starts abreast of one of the other. -/
theorem abreast_start {x y : Bytes} (hx : Ended x) (hy : Ended y) (u : Bytes)
    (symbols : SymbolTable) :
    (Session.start (u ++ x) symbols).Abreast u.length x y (Session.start (u ++ y) symbols) := by
  have hmark := byteOrderMarkLength_append hx u
  have hmark' := byteOrderMarkLength_append hy u
  have hle := byteOrderMarkLength_le u
  refine .inl ⟨u.drop (byteOrderMarkLength u), ?_, ?_, ?_, rfl⟩
  · show (u ++ x).drop (byteOrderMarkLength (u ++ x)) = _
    rw [hmark, drop_append_left hle]
  · show (u ++ y).drop (byteOrderMarkLength (u ++ y)) = _
    rw [hmark', drop_append_left hle]
  · show byteOrderMarkLength (u ++ x) + _ = _
    rw [hmark, List.length_drop, Nat.add_sub_cancel' hle]

/-- **Layout does not change meaning.** If a gap `g` between two siblings starts with white space or a
line break, any other `g'` that does so and says nothing may stand in its place, and the values and the
names are the same. -/
theorem transcode_relaid {u g g' v : Bytes} {symbols table : SymbolTable} {options : Options}
    {t : Transcoded} (hstrict : options.relaxed = false)
    (h : transcode (u ++ g ++ v) symbols options = (.ok t, table))
    (hgap : GapAmong u.length (u.length + g.length) t.values.items)
    (hg : Spaced g) (hg' : Spaced g') (hskip : Skipped g') :
    ∃ t', transcode (u ++ g' ++ v) symbols options = (.ok t', table) ∧
      t'.values.items.map Item.unplaced = t.values.items.map Item.unplaced := by
  have hsilent : Skipped g := by
    obtain ⟨e, htiles, -⟩ := tiles_of_transcode hstrict h
    have hs := (htiles.gapAmong hgap).2.2.skipped
    rwa [between, List.append_assoc, List.drop_left, Nat.add_sub_cancel_left, List.take_left] at hs
  have hxy := respaced_of_gaps hg hg' hsilent hskip v
  rw [List.append_assoc] at h ⊢
  generalize g ++ v = x at h hxy
  generalize g' ++ v = y at hxy
  obtain ⟨s, hscan, ht, rfl⟩ := transcodeWith_eq_ok.1 h
  rw [Setup.scan, level_eq, levelWith_eq_ok] at hscan
  obtain ⟨c, hrun, hc⟩ := hscan
  have hplace (source : Bytes) : (Session.start source symbols).At source :=
    ⟨rfl, rfl, byteOrderMarkLength_le source⟩
  have hfuel (source : Bytes) : (Session.start source symbols).cursor.rest.length ≤ source.length := by
    have := (hplace source).length
    omega
  have hf (n : Nat) := inside_forward ⟨options, .standard⟩ (n + 1) options.maxDepth
  have hconsumes (n : Nat) := inside_consumes ⟨options, .standard⟩ n options.maxDepth
  rw [rounds_eq_finish (hf _) (hconsumes _) (Nat.lt_succ_of_le (hfuel _))] at hrun
  rcases finish_abreast (e := u.length + g.length) hxy rfl hstrict
    (tiler_inside rfl hstrict (u ++ x) options.maxDepth)
    (keeps_inside hxy rfl hstrict (u ++ x) u.length (u.length + g.length) (u ++ y).length
      options.maxDepth) (hf _) (hconsumes _) (hf _) (hconsumes _) (hplace _) Level.noConfusion
    (abreast_start hxy.ended hxy.ended' u symbols) (hfuel _) (d := .empty) rfl
    (fun _ hitem => by cases hitem) ⟨1, (Session.start (u ++ y) symbols).cursor.lineStart⟩ hrun with
    ⟨c', s', hrun', hitems, hst, -⟩ | ⟨-, -, hclears⟩
  · refine ⟨⟨c'.toBlock, s'.cursor.start, s'.faults.reverse⟩,
      transcodeWith_eq_ok.2 ⟨s', ?_, rfl, hst.symbols.symm⟩, ?_⟩
    · rw [Setup.scan, level_eq, levelWith_eq_ok]
      exact ⟨c', (rounds_eq_finish (hf _) (hconsumes _) (Nat.lt_succ_of_le (hfuel _))).trans hrun', rfl⟩
    · rw [← hc]
      show c'.items.reverse.map _ = c.items.reverse.map _
      rw [List.map_reverse, List.map_reverse, hitems]
  · obtain ⟨e, htiles, -⟩ := tiles_of_transcode hstrict h
    rw [← hc] at htiles hgap
    have hmisses : Misses u.length (u.length + g.length) c.toBlock.items :=
      misses_of_clears (fun item hitem => ⟨(htiles.mem hitem).2.1, (htiles.mem hitem).2.2.2⟩)
        fun item hitem => hclears item (List.mem_reverse.1 hitem)
    exact absurd hgap hmisses.not_gapAmong

/-- Two items with these spans are adjacent. -/
theorem adjacent_of_spans {items : List Item} {p q : Span}
    (h : items.map (·.span) = [p, q]) : Adjacent p.stop q.start items := by
  match items, h with
  | [first, second], h =>
    obtain ⟨hp, hq⟩ := List.cons.inj h
    exact ⟨first, second, List.infix_rfl, congrArg Span.stop hp,
      congrArg Span.start (List.cons.inj hq).1⟩

/-- `[a b]` with a carriage return and a comment on a quote for its blank. -/
theorem transcode_relaid_block :
    ∃ u g g' v t t' table, u = [0x5B, 0x61] ∧ g = [0x20] ∧ g' = [0x0D, 0x3B, 0x22, 0x0A] ∧
      v = [0x62, 0x5D] ∧ GapAmong u.length (u.length + g.length) t.values.items ∧
      transcode (u ++ g ++ v) .initial .standard = (.ok t, table) ∧
      transcode (u ++ g' ++ v) .initial .standard = (.ok t', table) ∧
      t'.values.items.map Item.unplaced = t.values.items.map Item.unplaced := by
  have hspans : ((transcode ([0x5B, 0x61] ++ [0x20] ++ [0x62, 0x5D]) .initial .standard).1.toOption.map
      fun t => t.values.items.map fun item => item.value.block?.map fun block =>
        (block.1, block.2.items.map (·.span))) = some [some (.block, [⟨1, 2⟩, ⟨3, 4⟩])] := by
    decide +kernel
  cases h : transcode ([0x5B, 0x61] ++ [0x20] ++ [0x62, 0x5D]) .initial .standard with
  | mk result table =>
    rw [h] at hspans
    cases result with
    | error failure => cases hspans
    | ok t =>
      have hgap : GapAmong 2 3 t.values.items := by
        have hspans : t.values.items.map (fun item => item.value.block?.map fun block =>
            (block.1, block.2.items.map (·.span))) = [some (.block, [⟨1, 2⟩, ⟨3, 4⟩])] :=
          Option.some.inj hspans
        obtain ⟨item, rest, hitems, hitem, -⟩ := List.map_eq_cons_iff.1 hspans
        obtain ⟨⟨kind, body⟩, hblock, he⟩ := Option.map_eq_some_iff.1 hitem
        obtain ⟨rfl, hbody⟩ := Prod.mk.inj he
        refine .inr ⟨item, by rw [hitems]; exact List.mem_cons_self, ?_⟩
        rw [Value.block?_eq_some hblock]
        exact .siblings .block (adjacent_of_spans hbody)
      have hcomment : Skipped (semicolon :: [0x22] ++ [0x0A]) :=
        .comment (List.forall_mem_singleton.2 rfl) rfl .nil
      have hskip : Skipped [0x0D, 0x3B, 0x22, 0x0A] := .lineBreak rfl hcomment
      obtain ⟨t', ht', hitems⟩ :=
        transcode_relaid rfl h hgap (.inl (by decide)) (.inr (by decide)) hskip
      exact ⟨_, _, _, _, t, t', table, rfl, rfl, rfl, rfl, hgap, h, ht', hitems⟩

end RebolScan
