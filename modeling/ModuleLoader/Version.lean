/-! The version of the program and of the reports that it writes. -/

namespace ModuleLoader.Version

def number : String := "0.2.0"

def text : String := "modhost " ++ number

def reportSchema : Nat := 1

end ModuleLoader.Version
