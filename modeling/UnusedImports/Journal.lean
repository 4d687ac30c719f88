import UnusedImports.Log
import UnusedImports.Trim

/-!
What is told while a source is trimmed. Everything told can be read off the analysis: its
size, the verdicts of every round, and what is cut.
-/
namespace UnusedImports.Journal

def ofDecision (decision : Decision) : Log.Record :=
  ⟨.debug, "groovy_imports::resolver",
    decision.declaration.display ++ " at " ++ decision.declaration.span.position ++ ": " ++
      decision.verdict.message⟩

def ofSettlement (settlement : Settlement) : List Log.Record :=
  (settlement.earlier.flatten ++ settlement.decisions).map ofDecision

def ofSource (analysis : Analysis) : List Log.Record :=
  [⟨.trace, "groovy_imports::parser",
    s!"parsed {analysis.source.outline.imports.length} import(s), " ++
      s!"{analysis.source.outline.body.length} top-level body item(s)"⟩,
   ⟨.trace, "groovy_imports::usage_scanner",
    s!"collected {analysis.bodyReferences.length} identifier reference(s)"⟩]

def ofRemoval (analysis : Analysis) : List Log.Record :=
  if analysis.unused.isEmpty then []
  else
    let plan := analysis.plan
    [⟨.trace, "groovy_imports::rewriter",
      s!"deleting {plan.deletedLines.length} whole line(s), " ++
        s!"{plan.cuts.length} cut(s) in total"⟩,
     ⟨.debug, "groovy_imports::unused_import_trimmer",
      s!"Removed {analysis.unused.length} of {analysis.declarations.length} import(s)"⟩]

def ofOutcome : Except Failure Analysis → List Log.Record
  | .error failure =>
    [⟨.warn, "groovy_imports::unused_import_trimmer",
      "Leaving source unchanged: " ++ failure.message⟩]
  | .ok analysis =>
    ofSource analysis ++ ofSettlement analysis.settlement ++ ofRemoval analysis

end UnusedImports.Journal
