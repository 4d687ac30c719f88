/-!
Texts of several lines below a heading or beside a label.
-/
namespace UnusedImports.Text

def hangingIndent (width : Nat) (text : String) : String :=
  String.ofList (text.toList.flatMap fun c =>
    if c = '\n' then '\n' :: List.replicate width ' ' else [c])

end UnusedImports.Text
