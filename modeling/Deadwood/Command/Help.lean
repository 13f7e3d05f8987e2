/-! The texts that explain the command line. -/
namespace Deadwood.Command

def usage : String :=
  "usage: rprune [-h] [-o OUTPUT_FILE] [-c \x7b1,2\x7d] [--passes PASSES]\n" ++
  "              [--max-rounds MAX_ROUNDS] [--validate] [-v]\n" ++
  "              [input_file]\n"

def help : String :=
  usage ++
  "\n" ++
  "Remove dead code from an R script.\n" ++
  "\n" ++
  "positional arguments:\n" ++
  "  input_file            Script to optimize. Reads stdin when omitted.\n" ++
  "\n" ++
  "options:\n" ++
  "  -h, --help            show this help message and exit\n" ++
  "  -o OUTPUT_FILE, --output OUTPUT_FILE\n" ++
  "                        Where to write the optimized script (default:\n" ++
  "                        '<input>.opt.R'). Use '-' for stdout.\n" ++
  "  -c \x7b1,2\x7d, --compile \x7b1,2\x7d\n" ++
  "                        Stop after a stage and save it as JSON next to the\n" ++
  "                        input. '1' for the Abstract Syntax Tree. '2' for the\n" ++
  "                        Optimized Abstract Syntax Tree.\n" ++
  "  --passes PASSES       Comma separated passes to run (default:\n" ++
  "                        constant_folding,dead_code_elimination).\n" ++
  "  --max-rounds MAX_ROUNDS\n" ++
  "                        Upper bound on optimization rounds.\n" ++
  "  --validate            Check the optimized tree for leftover dead code.\n" ++
  "  -v, --verbose         Show debug logging from the passes.\n"

end Deadwood.Command
